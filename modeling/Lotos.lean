import Lotos.Lib.Scan
import Lotos.Lib.MinHeap
import Lotos.Lib.Walk
import Lotos.Lib.FreeList
import Lotos.Lib.Words
import Lotos.Lib.ThreeWay
import Lotos.Lib.PrefixTable
import Lotos.Lib.Simulation
import Lotos.Lib.Ownership
import Lotos.Lib.Framing
import Lotos.Lib.Batching
import Lotos.Bytes
import Lotos.Strings
import Lotos.Dict
import Lotos.Order
import Lotos.Parser.Defs
import Lotos.Parser.Resume
import Lotos.Parser.Chunks
import Lotos.Parser.RequestLine
import Lotos.Parser.HeaderLine
import Lotos.Parser.Stuck
import Lotos.Parser.Url
import Lotos.Parser.Bounds
import Lotos.Heap.Defs
import Lotos.Heap.Invariant
import Lotos.Heap.Remove
import Lotos.Heap.Run
import Lotos.Loop.Pool
import Lotos.Loop.PoolMemory
import Lotos.Loop.Defs
import Lotos.Loop.Accept
import Lotos.Loop.Run
import Lotos.Loop.Frame
import Lotos.Request.Defs
import Lotos.Buffer.Defs
import Lotos.Buffer.Handles
import Lotos.Buffer.Append
import Lotos.Request.Path
import Lotos.Request.Frame
import Lotos.Request.Headers
import Lotos.Request.Bounds
import Lotos.Buffer.Parse
import Lotos.Request.Helpers
import Lotos.Buffer.Calls
import Lotos.Request.History
import Lotos.Request.Values
import Lotos.Request.Options
import Lotos.Request.ErrPage
import Lotos.Request.Lines
import Lotos.Request.Whole
import Lotos.Request.Accept
import Lotos.Request.Slots
import Lotos.Request.Arrival
import Lotos.Request.Intake
import Lotos.Request.Memory
import Lotos.Request.Reuse
import Lotos.Request.Cut
import Lotos.Request.Fresh
import Lotos.Request.Send
import Lotos.Server.Defs
import Lotos.Server.Held
import Lotos.Server.Mask
import Lotos.Server.Delivery
import Lotos.Server.Resolve
import Lotos.Server.Answers
import Lotos.Server.Descriptors
import Lotos.Server.Persistent
import Lotos.Server.Success
import Lotos.Server.Batches
import Lotos.Server.Replies
import Lotos.Response.Message
import Lotos.Response.Framed
import Lotos.Response.Page
import Lotos.Response.Dialogue
import Lotos.Response.Held
import Lotos.System.Defs
import Lotos.System.Run
import Lotos.System.Project
import Lotos.System.Stops
import Lotos.System.Held
import Lotos.System.Timely
import Lotos.System.Epoll
import Lotos.System.Wakeup
import Lotos.System.Sockets
import Lotos.System.Clients
import Lotos.System.Patient
