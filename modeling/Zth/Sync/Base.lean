import Zth.Library.Monitor

/-!
# Synchronizers

Every synchronizer is a monitor of fibers: `block(q)` appends the current fiber
to queue `q` and hands the processor to another fiber, so it ends a piece of
code, and `unblockFirst(q)` and `unblockAll(q)` take fibers from a queue and make
them runnable. A fiber that was unblocked continues after its `block()` when the
worker picks it, which may be after any number of steps by other fibers; the
order in which the worker picks is not fixed here, so results hold for every
order.

The queues of a `Synchronizer<Size>` are indexed by a type: `Unit` for the usual
single queue.
-/

namespace Zth

namespace SynchronizerBase

variable {F Q O D : Type*} [DecidableEq F] [DecidableEq Q]

/-- Unblock the first fiber of a queue; returns the fiber that was unblocked. -/
def unblockFirst (q : Q) (s : Monitor.State F Q O D) :
    Monitor.State F Q O D × Option F :=
  s.wakeFirst q

/-- Unblock all fibers of a queue; returns whether there were any. -/
def unblockAll (q : Q) (s : Monitor.State F Q O D) : Monitor.State F Q O D × Bool :=
  s.wakeAll q

end SynchronizerBase

end Zth
