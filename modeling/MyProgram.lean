import MyProgram.Lib.Act
import MyProgram.Lib.CInt
import MyProgram.Lib.CString
import MyProgram.Lib.LuaPack
import MyProgram.Lib.Chain
import MyProgram.Lib.PtrTree
import MyProgram.Lib.DList
import MyProgram.Lib.Regions
import MyProgram.Lib.Runs
import MyProgram.Lib.SlotMap
import MyProgram.Lib.TailList
import MyProgram.TailQueue.Model
import MyProgram.TailQueue.Refinement
import MyProgram.TailQueue.Loops
import MyProgram.SkynetLua.Scheduler
import MyProgram.SkynetLua.Tables
import MyProgram.SkynetLua.Delivery
import MyProgram.SkynetLua.Answers
import MyProgram.SkynetLua.Sleepers
import MyProgram.SkynetLua.Queue
import MyProgram.SkynetLua.ServiceMgr
import MyProgram.SkynetLua.Launches
import MyProgram.Lib.Framing
import MyProgram.SkynetGate.Basic
import MyProgram.SkynetGate.Hashid
import MyProgram.SkynetGate.HashidWf
import MyProgram.SkynetGate.HashidUpdate
import MyProgram.SkynetGate.HashidRange
import MyProgram.SkynetGate.HashidRefinement
import MyProgram.SkynetGate.Databuffer
import MyProgram.SkynetGate.DatabufferQueue
import MyProgram.SkynetGate.Control
import MyProgram.SkynetGate.Effects
import MyProgram.SkynetGate.Service
import MyProgram.SkynetGate.Dispatch
import MyProgram.SkynetGate.Framing
import MyProgram.SkynetGate.FrameDelivery
import MyProgram.SkynetGate.Pool
import MyProgram.SkynetGate.Switch
import MyProgram.SkynetGate.Table
import MyProgram.SkynetGate.GateRefinement
import MyProgram.SkynetGate.ConnectionTable
import MyProgram.SkynetGate.Isolation
import MyProgram.SkynetGate.Rejection
import MyProgram.SkynetGate.Listening
import MyProgram.SkynetGate.ListenAddress
import MyProgram.SkynetGate.Release
import MyProgram.SkynetGate.PoolNodes
import MyProgram.SkynetGate.ByteQueue
import MyProgram.SkynetGate.BufferFrees
import MyProgram.SkynetGate.Watchdog
import MyProgram.Protopack.Pack
import MyProgram.Protopack.RoundTrip
import MyProgram.Protopack.Frames
import MyProgram.SearchTree.Model
import MyProgram.SearchTree.Links
import MyProgram.SearchTree.Delete
import MyProgram.SearchTree.History
import MyProgram.SearchTree.Count
import MyProgram.Adlist.Model
import MyProgram.Adlist.Refinement
import MyProgram.Adlist.Iterator
import MyProgram.Adlist.Traversal
import MyProgram.Adlist.Dup
import MyProgram.StlAlloc.Model
import MyProgram.StlAlloc.Sizes
import MyProgram.StlAlloc.Chunks
import MyProgram.StlAlloc.Blocks
import MyProgram.StlAlloc.Conservation
import MyProgram.SearchTree.InOrder
import MyProgram.SearchTree.Neighbours
import MyProgram.SearchTree.Extremes
import MyProgram.SkynetGate.FrameConsumption
import MyProgram.Protopack.Accepts
import MyProgram.SkynetGate.Commands
import MyProgram.SkynetGate.ConnectCommand
import MyProgram.SkynetGate.ForwardCommand
import MyProgram.Lib.Handles
import MyProgram.Mysql.Model
import MyProgram.Mysql.Ownership
import MyProgram.Mysql.Result
import MyProgram.Epoll.Server
import MyProgram.Epoll.Stranding
import MyProgram.Epoll.Output
import MyProgram.Lib.Memo
import MyProgram.Protobuf.Model
import MyProgram.Protobuf.Module
import MyProgram.Protobuf.Reload
import MyProgram.Lib.Assoc
import MyProgram.Lib.LuaHeap
import MyProgram.Luaext.TableCopy
import MyProgram.Luaext.Dump
import MyProgram.Luaext.DumpOnce
import MyProgram.Luaext.DumpTermination
import MyProgram.Lib.Lineage
import MyProgram.Luaext.Class2
import MyProgram.Luaext.Lookup
import MyProgram.Luaext.LookupOrder
import MyProgram.Luaext.Class
import MyProgram.Luaext.Inheritance
import MyProgram.Luaext.ClassChain
import MyProgram.Luaext.Instances
import MyProgram.Lib.LuaString
import MyProgram.Lib.LuaPattern
import MyProgram.Lib.LuaLiteral
import MyProgram.Mant.Template
import MyProgram.Luaext.Separators
import MyProgram.Dispatching.Model
import MyProgram.Dispatching.LogSwitch
import MyProgram.Dispatching.Registration
import MyProgram.Json.Model
import MyProgram.Json.Strings
import MyProgram.Json.Tables
import MyProgram.Json.RoundTrip
import MyProgram.Lib.Streams
import MyProgram.Websocket.Model
import MyProgram.Websocket.Frames
import MyProgram.Websocket.Messages
import MyProgram.Redis.Model
import MyProgram.Redis.Replies
import MyProgram.Redis.Requests
import MyProgram.Lib.Crc
import MyProgram.Redis.Cluster
import MyProgram.Harbor.Model
import MyProgram.Harbor.Steps
import MyProgram.Harbor.Names
import MyProgram.Harbor.Waiting
import MyProgram.Harbor.Found
import MyProgram.Harbor.Mesh
import MyProgram.Harbor.Started
