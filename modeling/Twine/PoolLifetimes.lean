import Twine.PoolRuns

/-!
# Nothing is used after its destruction

A worker thread uses its own `WorkerThread` and, through references, three members of the
pool. The destructor of `WorkerPoolImpl` destroys the members in the reverse order of
their declarations, so the data for Apple's threads is gone while the threads are being
joined, and the barrier only goes after the last one.
-/
namespace Twine.Pool

open Placement

/-- What a worker thread refers to. -/
inductive Object where
  | appleData
  | workerThread (i : Nat)
  | barrier
  | running
  deriving DecidableEq, Repr

/-- The objects whose destruction is still ahead. -/
def State.alive (s : State) : Object → Prop
  | .appleData => (∀ i, s.ctrl ≠ .joining i) ∧ s.ctrl ≠ .destroyed
  | .workerThread i =>
    i < s.workers.length ∧ (∀ j, s.ctrl = .joining j → j ≤ i) ∧ s.ctrl ≠ .destroyed
  | .barrier | .running => s.ctrl ≠ .destroyed

end Twine.Pool
