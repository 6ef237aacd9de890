import Blush.Lib.Transition
import Blush.Lib.Slots
import Blush.Lib.Heap
import Blush.Lib.MachineInt
import Blush.Lib.Lease
import Blush.TaskRunner.Model
import Blush.TaskRunner.Wakeup
import Blush.TaskRunner.Drain
import Blush.TaskScheduler.Cancellable
import Blush.TaskScheduler.Model
import Blush.TaskScheduler.Step
import Blush.TaskScheduler.LifeCycle
import Blush.TaskScheduler.Simulation
import Blush.TaskScheduler.Cancellation
import Blush.TaskScheduler.OneShot
import Blush.TaskScheduler.Overlap
import Blush.TaskScheduler.Mutex
import Blush.TaskScheduler.Wakeup
import Blush.TaskScheduler.Repeating
import Blush.Connections.EventDispatcher
import Blush.Connections.Model
import Blush.Connections.Step
import Blush.Connections.Endpoint
import Blush.Connections.LazyOpen
import Blush.Connections.Alternation
import Blush.Connections.Lifetime
import Blush.Connections.Refusal
import Blush.Connections.Delivery
import Blush.Injection.Isolation
import Blush.Network.Correlation
import Blush.Lib.BoundedList
import Blush.Lib.Memory
import Blush.Storage.Inert
import Blush.Storage.Refinement
import Blush.Storage.Sequence.Ownership
import Blush.Storage.Sequence.Refinement
import Blush.Storage.String.Arithmetic
import Blush.Storage.String.Refinement
import Blush.Storage.String.Terminated
import Blush.Lib.FirstSeen
import Blush.Codegen.Requesters
import Blush.Codegen.Standard
import Blush.Codegen.Senders
import Blush.Lib.LastWrite
import Blush.Resolver.Names
import Blush.Uop.Release
import Blush.Uop.WholeSet
import Blush.Pipeline.Stamp
import Blush.Pipeline.Shared
import Blush.Connections.Scope
import Blush.Requests.Outstanding
import Blush.TaskScheduler.TimerPass
import Blush.TaskScheduler.Elapsed
import Blush.Storage.Growth
import Blush.Storage.Atomicity
import Blush.Storage.Sizes
import Blush.Storage.SelfAppend
import Blush.Requests.OneShot
import Blush.Responders.Model
import Blush.Responders.Replies
import Blush.Resolver.Factories
import Blush.EventDispatcher.Handles
import Blush.Injection.Keys
import Blush.IDGenerator.Ids
import Blush.Lib.Scan
import Blush.Lib.InPlace
import Blush.Lib.Fuel
import Blush.Xml.StrPair
import Blush.Xml.Decode
import Blush.Xml.Parser
import Blush.Xml.Progress
import Blush.Xml.WellFormed
import Blush.Xml.Printer
import Blush.Xml.Printed
import Blush.Xml.Written
import Blush.Xml.Writing
import Blush.Xml.RoundTrip
import Blush.Uop.ConfigText
import Blush.Lib.Progress
import Blush.Lib.Atomic
import Blush.ReadWriteLocked.Model
import Blush.ReadWriteLocked.Linearizable
import Blush.TaskRunner.Shutdown
import Blush.TaskScheduler.Shutdown
import Blush.Lib.Threads
import Blush.Uop.Lifecycle
import Blush.Uop.Messages
import Blush.Lib.Stamped
import Blush.Pipeline.Rebuild
import Blush.TaskScheduler.CatchUp
