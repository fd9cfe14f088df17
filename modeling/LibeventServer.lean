import LibeventServer.Lib.CharArray
import LibeventServer.Lib.Heap
import LibeventServer.Lib.Program
import LibeventServer.Lib.Runs
import LibeventServer.Lib.Table
import LibeventServer.Lib.Transducer
import LibeventServer.Frames
import LibeventServer.World
import LibeventServer.Server
import LibeventServer.Control
import LibeventServer.ReadLoop
import LibeventServer.Callbacks
import LibeventServer.Lua.Value
import LibeventServer.Lua.Client
import LibeventServer.Lua.BattleRoom
import LibeventServer.Lua.Main
import LibeventServer.Lua.Calls
import LibeventServer.Lua.Traffic
import LibeventServer.Lua.GameLoop
import LibeventServer.Connections
import LibeventServer.Ids
import LibeventServer.Lifecycle
import LibeventServer.ReadBound
import LibeventServer.Sending
import LibeventServer.Framing
import LibeventServer.Tracking
import LibeventServer.Registries
import LibeventServer.Lib.Pairs
import LibeventServer.Lib.Tally
import LibeventServer.Lua.Hit
import LibeventServer.Lua.Impulse
import LibeventServer.Lua.Order
import LibeventServer.Lua.Snapshot
import LibeventServer.Lua.Dispatch
import LibeventServer.Lua.MessagePack
import LibeventServer.Lua.Remote
import LibeventServer.Lua.Chunk
import LibeventServer.Lua.Import
import LibeventServer.Lua.Reload
import LibeventServer.Lua.Loading
import LibeventServer.Lua.Imports
import LibeventServer.Lib.Writes
import LibeventServer.Lua.Shared
import LibeventServer.Lua.Isolation
import LibeventServer.Lua.FailedReload
import LibeventServer.Lua.HotReload
import LibeventServer.Lua.Synthesis
import LibeventServer.Lua.Momentum
import LibeventServer.Lua.Speeds
import LibeventServer.Lua.Friction
import LibeventServer.Lua.Merge
import LibeventServer.Lua.ReloadScript
import LibeventServer.Lua.Class
import LibeventServer.Lua.Resolution
import LibeventServer.Lua.Inheritance
import LibeventServer.Lib.Pattern
import LibeventServer.Lua.Strings
import LibeventServer.Lua.Ini
import LibeventServer.Lua.LoadIni
import LibeventServer.ByteCounter
import LibeventServer.Lib.Reading
import LibeventServer.Lib.Stream
import LibeventServer.Lib.Rounding
import LibeventServer.Lua.Number
import LibeventServer.Lua.Packers
import LibeventServer.Lua.Unpackers
import LibeventServer.Lua.Cursor
import LibeventServer.Lua.Decoding
import LibeventServer.Lua.Unpacking
import LibeventServer.Lua.Integers
import LibeventServer.Lua.Doubles
import LibeventServer.Lua.Tables
import LibeventServer.Lua.Shapes
import LibeventServer.Lua.Portable
import LibeventServer.Lua.Streams
import LibeventServer.Lua.Unpacked
import LibeventServer.Lua.PackedSize
import LibeventServer.Lua.SyncSize
import LibeventServer.Lib.Bytes
import LibeventServer.Lib.LinkedList
import LibeventServer.Libevent.Buffer
import LibeventServer.Libevent.Chains
import LibeventServer.Libevent.Draining
import LibeventServer.Libevent.Adding
import LibeventServer.Libevent.Writing
import LibeventServer.Libevent.Expanding
import LibeventServer.Libevent.Reading
import LibeventServer.Libevent.BuffereventSock
import LibeventServer.Libevent.Streaming
import LibeventServer.Overflow
import LibeventServer.Lua.Crowds
import LibeventServer.Shutdown
import LibeventServer.Libevent.Bufferevents
import LibeventServer.Delivery
import LibeventServer.Lua.Steering
