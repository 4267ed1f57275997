import CoffeeChat.Lib.Cpp
import CoffeeChat.Lib.Runs
import CoffeeChat.Lib.CText
import CoffeeChat.Lib.Utf8
import CoffeeChat.Lib.Utf8Table
import CoffeeChat.Lib.Lts
import CoffeeChat.Lib.Sockets
import CoffeeChat.Lib.Session
import CoffeeChat.Lib.Service
import CoffeeChat.Lib.Progress
import CoffeeChat.Lib.Istream
import CoffeeChat.Lib.Ledger
import CoffeeChat.Lib.Lossy
import CoffeeChat.Lib.Stream
import CoffeeChat.Lib.Leftmost
import CoffeeChat.Lib.LeftmostEnds
import CoffeeChat.Lib.LeftmostPair
import CoffeeChat.Udp
import CoffeeChat.UdpV2
import CoffeeChat.UdpV3
import CoffeeChat.UdpRecv
import CoffeeChat.UdpAck
import CoffeeChat.UdpChat
import CoffeeChat.UdpQuiet
import CoffeeChat.UdpAddr
import CoffeeChat.UdpV1
import CoffeeChat.UdpLine
import CoffeeChat.UdpDescriptors
import CoffeeChat.InputLoop
import CoffeeChat.RobotStream
import CoffeeChat.Balancer
import CoffeeChat.BalancerLatency
import CoffeeChat.WeChatApi
import CoffeeChat.WeChatSignature
import CoffeeChat.JsonSerializer
import CoffeeChat.JsonEscape
import CoffeeChat.JsonLexer
import CoffeeChat.JsonString
import CoffeeChat.JsonNumber
import CoffeeChat.JsonParser
import CoffeeChat.JsonWellFormed
import CoffeeChat.JsonRoundTrip
import CoffeeChat.WeChatJson
import CoffeeChat.RobotServer
import CoffeeChat.RobotReplace
import CoffeeChat.EchoServers
import CoffeeChat.EchoSelect
import CoffeeChat.EpollRead
import CoffeeChat.EpollLoop
import CoffeeChat.Trie
import CoffeeChat.TriePrefix
import CoffeeChat.TrieMask
import CoffeeChat.TrieSearch
import CoffeeChat.TrieClean
import CoffeeChat.TrieStop
