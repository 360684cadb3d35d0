import SkynetHotfix.Lib.Machine
import SkynetHotfix.Lib.Last
import SkynetHotfix.Timer.Cancel
import SkynetHotfix.Timer.Found
import SkynetHotfix.Timer.Schedule
import SkynetHotfix.Timer.Steps
import SkynetHotfix.Timer.Whole
import SkynetHotfix.Class.Atomic
import SkynetHotfix.Class.Methods
import SkynetHotfix.Class.Override
import SkynetHotfix.Class.Reference
import SkynetHotfix.Class.Rebind
import SkynetHotfix.Lib.Fuel
import SkynetHotfix.Lua.Heap
import SkynetHotfix.Luaext.Dump
import SkynetHotfix.ModuleUpdater.Carry
import SkynetHotfix.ModuleUpdater.Cover
import SkynetHotfix.ProtoLoader.Inverse
import SkynetHotfix.Dispatch.Reply
import SkynetHotfix.HotfixHelper.Check
import SkynetHotfix.ConfigTool.Watched
import SkynetHotfix.ConfigTool.HotLoad
import SkynetHotfix.Hotfix.Replaced
import SkynetHotfix.Util.SortTable
import SkynetHotfix.Lib.Arrange
import SkynetHotfix.Util.Permutation
import SkynetHotfix.Lib.Choose
import SkynetHotfix.Util.Combination
import SkynetHotfix.Wsgate.Count
import SkynetHotfix.Lib.WebSocket
import SkynetHotfix.Websocket.Basic
import SkynetHotfix.Websocket.Receive
import SkynetHotfix.Websocket.Send
import SkynetHotfix.Websocket.Message
import SkynetHotfix.Lib.Framing
import SkynetHotfix.Netpack.Basic
import SkynetHotfix.Netpack.Queue
import SkynetHotfix.Netpack.Header
import SkynetHotfix.Netpack.Parse
import SkynetHotfix.Netpack.Filter
import SkynetHotfix.Netpack.Reached
import SkynetHotfix.Netpack.Stream
import SkynetHotfix.Netpack.Frames
import SkynetHotfix.Netpack.Handshake
import SkynetHotfix.Netpack.Cuts
import SkynetHotfix.Pbc.Parser
import SkynetHotfix.ProtoLoader.Load
import SkynetHotfix.Pbc.Resolve
import SkynetHotfix.Pbc.Files
import SkynetHotfix.ProtoLoader.Loads
import SkynetHotfix.Util.Mix
import SkynetHotfix.Lib.Weighted
import SkynetHotfix.Util.Rand
import SkynetHotfix.Luaext.RemoveSub
import SkynetHotfix.Luaext.SqlStr
import SkynetHotfix.Luaext.SubUtf8
import SkynetHotfix.Util.Uri
import SkynetHotfix.Lib.Meetings
import SkynetHotfix.Luaext.Dumped
import SkynetHotfix.Lib.Settles
import SkynetHotfix.Lua.Metatable
import SkynetHotfix.Luaext.Copy
import SkynetHotfix.Lua.Graph
import SkynetHotfix.Luaext.Cloned
import SkynetHotfix.Lua.Tree
import SkynetHotfix.Luaext.TableCopy
import SkynetHotfix.Luaext.Diverted
import SkynetHotfix.Luaext.NoMeta
import SkynetHotfix.Luaext.SubRest
import SkynetHotfix.Algorithm.QQueue
import SkynetHotfix.Lib.Linked
import SkynetHotfix.Algorithm.QLinkList
import SkynetHotfix.Fsm.Basic
import SkynetHotfix.Fsm.Fires
import SkynetHotfix.Lib.Runs
import SkynetHotfix.Lua.Pattern
import SkynetHotfix.Lua.PatternRuns
import SkynetHotfix.Luaext.Split
import SkynetHotfix.Help.Basic
import SkynetHotfix.Help.Reports
import SkynetHotfix.Help.Values
import SkynetHotfix.Util.OpenPath
import SkynetHotfix.Class.WeakList
import SkynetHotfix.Lib.Buckets
import SkynetHotfix.Skynet.Wheel
import SkynetHotfix.Lib.Circular
import SkynetHotfix.Skynet.Mq
import SkynetHotfix.Skynet.Dispatch
import SkynetHotfix.Skynet.Served
import SkynetHotfix.Lib.BinarySearch
import SkynetHotfix.Lib.Refine
import SkynetHotfix.Skynet.Handle
import SkynetHotfix.Skynet.Registered
import SkynetHotfix.Skynet.Lock
import SkynetHotfix.Lib.Codes
import SkynetHotfix.Lib.LittleEndian
import SkynetHotfix.Seri.Basic
import SkynetHotfix.Seri.RoundTrip
import SkynetHotfix.Seri.Refused
import SkynetHotfix.Skynet.Coroutines
import SkynetHotfix.Skynet.Resumed
import SkynetHotfix.Skynet.Answered
import SkynetHotfix.Lib.Feistel
import SkynetHotfix.Crypt.Basic
import SkynetHotfix.Crypt.Des
import SkynetHotfix.Crypt.Exchange
import SkynetHotfix.Crypt.Base64
import SkynetHotfix.Crypt.Hex
import SkynetHotfix.Lib.Pipe
import SkynetHotfix.Login.Basic
import SkynetHotfix.Login.Agreed
import SkynetHotfix.Login.Progress
import SkynetHotfix.Login.Replied
import SkynetHotfix.Login.Exclusive
