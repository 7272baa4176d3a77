import Nginz.Lib.BigEndian
import Nginz.Lib.Framing
import Nginz.AroopTxt
import Nginz.BinaryCoder
import Nginz.BinaryCoder.Packing
import Nginz.BinaryCoder.Unpacking
import Nginz.BinaryCoder.RoundTrip
import Nginz.Net.TransferMessage
import Nginz.Net.Streamio
import Nginz.Net.Protostack
import Nginz.Net.TcpListener
import Nginz.Lib.Links
import Nginz.Net.StreamLinks
import Nginz.Lib.Words
import Nginz.Scanner
import Nginz.Chat.Command
import Nginz.Http.Parser
import Nginz.Lib.Lines
import Nginz.Http.Requests
import Nginz.Http.ClientData
import Nginz.Lib.KeyedStore
import Nginz.Parallel.Pipeline
import Nginz.Parallel.AsyncRequest
import Nginz.Db.AsyncDb
import Nginz.Db.AsyncDbMaster
import Nginz.Lib.Mailbox
import Nginz.Lib.Transition
import Nginz.Db.Store
import Nginz.Db.Atomic
import Nginz.Chat.Broadcast
import Nginz.Chat.Worker
import Nginz.Chat.Sending
import Nginz.LazyCall
import Nginz.Chat.Factory
import Nginz.Chat.Plugs
import Nginz.Chat.Accept
import Nginz.Chat.Membership
import Nginz.Chat.Routine
import Nginz.Chat.Burial
import Nginz.Chat.Zombies
import Nginz.Chat.CleanupQueue
import Nginz.Chat.LoginOutput
import Nginz.Chat.MembershipRuns
import Nginz.Chat.RoomLookup
import Nginz.Chat.MemberActions
import Nginz.Chat.RoomMembers
import Nginz.Chat.Counters
import Nginz.Chat.Quiescence
import Nginz.Chat.RequestInvariant
import Nginz.Chat.Serving
import Nginz.Chat.ServingEnds
import Nginz.Chat.Service
import Nginz.EventLoop.Table
import Nginz.EventLoop.Poll
import Nginz.EventLoop.Partitioned
import Nginz.EventLoop.Accesses
import Nginz.Parallel.Arguments
import Nginz.Chat.JoinHandOff
import Nginz.Lib.Fanout
import Nginz.Parallel.Nodes
import Nginz.Parallel.LoadBalancer
import Nginz.Parallel.Ping
import Nginz.Parallel.ProcessTable
import Nginz.Chat.Replies
import Nginz.Chat.LateReplies
import Nginz.Chat.ServiceEvents
import Nginz.Lib.Custody
import Nginz.Chat.OpenSockets
import Nginz.Chat.SoftQuit
import Nginz.Chat.HandedOff
import Nginz.Chat.References
import Nginz.Chat.NamesKept
import Nginz.Chat.NameRegistry
import Nginz.Chat.NameLedger
import Nginz.Chat.NameSteps
import Nginz.Chat.ChatSystem
import Nginz.Chat.Fleet
import Nginz.Lib.Shares
import Nginz.Chat.NamesUnique
import Nginz.BinaryCoder.IntFields
import Nginz.BinaryCoder.Bounds
import Nginz.Parallel.StaleBytes
import Nginz.Db.Reading
import Nginz.Db.Increment
import Nginz.Lib.Relay
import Nginz.Shake.QuitAll
import Nginz.Lib.Arena
import Nginz.Plugin.Composite
import Nginz.Plugin.Categories
import Nginz.Fiber.Module
import Nginz.Fiber.LifeCycle
import Nginz.Fiber.Rounds
import Nginz.Chat.RoomMaster
import Nginz.Chat.RoomListing
import Nginz.Chat.Parting
import Nginz.Lib.Cuts
import Nginz.Chat.Segments
import Nginz.Chat.Segmentation
import Nginz.LazyCall
import Nginz.Lib.Decimal
import Nginz.Lib.Announced
import Nginz.Lib.Lossy
import Nginz.Http.Tunnel
import Nginz.Http.Conversation
import Nginz.Net.Delivery
import Nginz.WebChat.SessionId
import Nginz.WebChat.Session
import Nginz.WebChat.SessionPool
import Nginz.Chat.Talk
import Nginz.EventLoop.PartitionedStep
import Nginz.Net.Accepting
import Nginz.Lib.Replay
import Nginz.Http.Lifetimes
