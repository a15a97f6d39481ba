import Zth.Library.Run
import Zth.Library.Monitor
import Zth.Library.LevelTree
import Zth.Library.Fallible
import Zth.Library.Grouping
import Zth.Library.SwapRemove
import Zth.List.SortedList
import Zth.List.Balance
import Zth.List.Order
import Zth.List.OrderedSet
import Zth.Time.Interval
import Zth.Sync.Base
import Zth.Sync.Mutex
import Zth.Sync.Semaphore
import Zth.Sync.Mailbox
import Zth.Sync.WaitEmpty
import Zth.Sync.Signal
import Zth.Sync.Gate
import Zth.Sync.Future
import Zth.Sync.Promise
import Zth.Sync.TypedFiber
import Zth.Sync.Joiner
import Zth.Sync.Passes
import Zth.Fsm.Table
import Zth.Fsm.Compile
import Zth.Fsm.Basic
import Zth.Fsm.Step
import Zth.Fsm.Stack
import Zth.Fsm.Pieces
import Zth.Fsm.Loop
import Zth.Fsm.Missed
import Zth.Poller.Server
import Zth.Poller.InSync
import Zth.Poller.Migrate
import Zth.Poller.Rollback
import Zth.Poller.Client
import Zth.Poller.Results
import Zth.Coro.Generator
import Zth.Coro.Range
import Zth.Coro.Consumers
import Zth.Coro.Sound
import Zth.Coro.Lost
import Zth.Coro.Nested
import Zth.Coro.Shape
import Zth.Coro.Coded
import Zth.Coro.Driven
import Zth.Worker.Basic
import Zth.Worker.System
import Zth.Worker.Place
import Zth.Worker.Schedule
import Zth.Worker.Consistency
import Zth.Worker.Waiting
import Zth.Worker.Safety
import Zth.Worker.Footprint
import Zth.Worker.WaitingList
import Zth.Worker.Sleep
import Zth.Worker.Spares
import Zth.Worker.Idle
import Zth.Worker.Serving
import Zth.Library.Ring
import Zth.Library.Rotation
import Zth.List.Linked
import Zth.List.Sequence
import Zth.Library.Throwing
import Zth.Util.SmallVector
import Zth.Util.PlainVector
import Zth.Sync.SharedPointer
import Zth.Sync.RefCount
import Zth.Worker.RoundRobin
import Zth.Sync.SignalTimeout
import Zth.Sync.TryLock
import Zth.Worker.Tracked
import Zth.Worker.TrackedWaiting
import Zth.Worker.Kill
import Zth.Worker.Choice
import Zth.Worker.Returning
import Zth.Worker.SelfSwitch
import Zth.Worker.Destruct
import Zth.Library.IntType
import Zth.Time.Arithmetic
import Zth.Time.Timestamp
import Zth.Time.Convert
import Zth.Time.Timeouts
import Zth.Time.Periodic
import Zth.Worker.Expiry
import Zth.Poller.AllOrNothing
import Zth.Poller.DoPoll
import Zth.Library.Chain
import Zth.List.Hook
import Zth.List.Inserted
import Zth.Sync.NotInFiber
import Zth.Sync.SemPost
import Zth.Worker.Runnable
import Zth.Context.Stack
import Zth.Poller.Revents
import Zth.Fsm.Callbacks
import Zth.Poller.Single
import Zth.Io.Sharing
import Zth.Io.Read
import Zth.Io.Zmq
import Zth.Context.SwitchGuard
import Zth.Perf.VcdId
import Zth.Time.MacClock
import Zth.Library.Memory
import Zth.Context.Watermark
import Zth.Context.Create
import Zth.Perf.Escape
import Zth.Perf.Process
import Zth.Perf.Backtrace
import Zth.Perf.Buffer
import Zth.Worker.Taking
import Zth.Worker.Arbitration
import Zth.Library.Script
import Zth.Worker.Bystander
import Zth.Worker.Undisturbed
import Zth.Worker.Service
import Zth.Sync.Hosted
import Zth.Sync.Scripts
import Zth.Sync.Simulation
import Zth.Sync.OnWorker
import Zth.Library.Until
import Zth.Coro.Task
import Zth.Coro.Direct
import Zth.Coro.RunTask
import Zth.Perf.Read
import Zth.Perf.Record
import Zth.Context.Mpu
import Zth.Context.StackGuard
import Zth.Worker.Children
import Zth.Sync.Released
import Zth.Perf.EventRate
import Zth.Worker.Turns
