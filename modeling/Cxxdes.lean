import Cxxdes.Core.Await
import Cxxdes.Core.Environment
import Cxxdes.Await.Edit
import Cxxdes.Await.Frame
import Cxxdes.Core.Update
import Cxxdes.Await.Protocol
import Cxxdes.Await.Suspend
import Cxxdes.Run.Cases
import Cxxdes.Run.Ownership
import Cxxdes.Run.Order
import Cxxdes.Run.Clock
import Cxxdes.Run.Sources
import Cxxdes.Run.Reports
import Cxxdes.Run.Started
import Cxxdes.Run.Wiring
import Cxxdes.Run.Deadline
import Cxxdes.Run.Isolation
import Cxxdes.Core.View
import Cxxdes.Run.Frames
import Cxxdes.Run.ViewRuns
import Cxxdes.Subroutine.Machine
import Cxxdes.Subroutine.Refine
import Cxxdes.Subroutine.Trampoline
import Cxxdes.Await.Outside
import Cxxdes.Sync.Monitor
import Cxxdes.Run.Current
import Cxxdes.Sync.Wakeup
import Cxxdes.Run.Beginning
import Cxxdes.Run.Delivery
import Cxxdes.Run.Statuses
import Cxxdes.Sync.History
import Cxxdes.Sync.Queue
import Cxxdes.Sync.Semaphore
import Cxxdes.Sync.Mutex
import Cxxdes.Sync.Resource
import Cxxdes.Sync.Conservation
import Cxxdes.Run.Pausing
import Cxxdes.Await.Handlers
import Cxxdes.Run.Tokens
import Cxxdes.Run.Compositions
import Cxxdes.Run.Leftovers
import Cxxdes.Run.Yield
import Cxxdes.Lifetime.Counting
import Cxxdes.Lifetime.Frames
import Cxxdes.Lifetime.Destruction
import Cxxdes.Run.Comparator
import Cxxdes.Run.Parents
import Cxxdes.Time.Convert
import Cxxdes.Time.Expr
import Cxxdes.Time.Lazy
import Cxxdes.Time.Error
import Cxxdes.Memory.Exact
import Cxxdes.Priority.Inherit
import Cxxdes.Async.Start
import Cxxdes.Timing.Duration
import Cxxdes.Timing.Limit
import Cxxdes.Blocking.Forever
import Cxxdes.Run.Ties
import Cxxdes.Run.Driving
import Cxxdes.Sync.Broadcast
import Cxxdes.Sync.Protected
import Cxxdes.Sync.Rest
