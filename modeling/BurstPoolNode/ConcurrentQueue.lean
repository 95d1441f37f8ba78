import BurstPoolNode.System
import BurstPoolNode.Tickets

/-!
# The queue of the requests

`concurrentqueue.h`: the queue between the sessions and the distributor. Every
thread that enqueues has a producer of its own, and any thread dequeues from
any producer, without a lock: it draws a ticket, looks whether there is an
element for it, and if so takes the next index, else gives the ticket back.
The steps of a thread are its loads, stores and increments of the counters, in
any interleaving with those of the other threads, and each of them is seen by
all the others at once (sequential consistency).

The counters are of 64 bits and compared as on a circle. Where an element is
moved out of a cell that holds none, `fault` is set. The blocks that the cells
lie in, the index that leads to them and the free list they go back to are taken
as given: the cell of an index is always there, and `dequeue` ends here when the
element is moved out.
-/

namespace BurstPoolNode.ConcurrentQueue

variable {α ι : Type*} [DecidableEq ι]

/-- `circular_less_than` -/
def circularLessThan (a b : UInt64) : Bool := a - b > (1 : UInt64) <<< 63

/-- Where a thread is in `dequeue`, with its local variables. -/
inductive Dequeue
  | start
  | loadedTail (tail : UInt64)
  | loadedOvercommit (tail overcommit : UInt64)
  | entered (overcommit : UInt64)
  | ticket (overcommit myDequeueCount : UInt64)
  | granted (myDequeueCount : UInt64)
  | refused (myDequeueCount : UInt64)
  | indexed (index : UInt64)
  deriving DecidableEq

/-- A producer, with the threads that are in its `dequeue`; the element whose `enqueue` is
    not yet published; and what has been published and moved out so far. -/
structure Producer (α ι : Type*) where
  tailIndex : UInt64 := 0
  headIndex : UInt64 := 0
  dequeueOptimisticCount : UInt64 := 0
  dequeueOvercommit : UInt64 := 0
  cells : UInt64 → Option α := fun _ => none
  enqueuing : Option α := none
  threads : ι → Dequeue := fun _ => .start
  published : List α := []
  taken : List (ι × α) := []
  fault : Bool := false

namespace Producer

def blockSize : UInt64 := 32

/-- Where a new block is to be started, whether the queue is full. -/
def full (s : Producer α ι) : Bool :=
  s.tailIndex &&& (blockSize - 1) = 0 ∧ !circularLessThan s.headIndex (s.tailIndex + blockSize)

/-- `enqueue` until the element is in its cell; `memory` tells whether there is memory for
    a new block where one is to be started. Otherwise `enqueue` returns `false`. -/
def enqueue (s : Producer α ι) (x : α) (memory : Bool) : Option (Producer α ι) :=
  if s.enqueuing.isNone then
    if s.full ∨ s.tailIndex &&& (blockSize - 1) = 0 ∧ !memory then
      some s
    else
      some { s with
        cells := Function.update s.cells s.tailIndex (some x)
        enqueuing := some x }
  else
    none

/-- The end of `enqueue`. -/
def publish (s : Producer α ι) : Option (Producer α ι) :=
  s.enqueuing.map fun x =>
    { s with
      tailIndex := 1 + s.tailIndex
      enqueuing := none
      published := s.published ++ [x] }

/-- The producer with the thread `c` at `d`. -/
def goTo (s : Producer α ι) (c : ι) (d : Dequeue) : Producer α ι :=
  { s with threads := Function.update s.threads c d }

/-- A step of the thread `c` in `dequeue`; and, at its end, what is found. -/
def dequeue (s : Producer α ι) (c : ι) : Producer α ι × Option (Option α) :=
  match s.threads c with
  | .start => (s.goTo c (.loadedTail s.tailIndex), none)
  | .loadedTail tail => (s.goTo c (.loadedOvercommit tail s.dequeueOvercommit), none)
  | .loadedOvercommit tail overcommit =>
    if circularLessThan (s.dequeueOptimisticCount - overcommit) tail then
      (s.goTo c (.entered overcommit), none)
    else
      (s.goTo c .start, some none)
  | .entered overcommit =>
    ({ s.goTo c (.ticket overcommit s.dequeueOptimisticCount) with
      dequeueOptimisticCount := s.dequeueOptimisticCount + 1 }, none)
  | .ticket overcommit myDequeueCount =>
    if circularLessThan (myDequeueCount - overcommit) s.tailIndex then
      (s.goTo c (.granted myDequeueCount), none)
    else
      (s.goTo c (.refused myDequeueCount), none)
  | .granted _ => ({ s.goTo c (.indexed s.headIndex) with headIndex := s.headIndex + 1 }, none)
  | .refused _ =>
    ({ s.goTo c .start with dequeueOvercommit := s.dequeueOvercommit + 1 }, some none)
  | .indexed index =>
    match s.cells index with
    | none => ({ s with fault := true }, none)
    | some x =>
      ({ s.goTo c .start with
        cells := Function.update s.cells index none
        taken := s.taken ++ [(c, x)] }, some (some x))

/-- `size_approx`, once the two loads are done. -/
def sizeApprox (tail head : UInt64) : UInt64 :=
  if circularLessThan head tail then tail - head else 0

end Producer

/-- Where a thread is in `try_dequeue`, with its local variables. Of the list of the
    producers, the first `left` are still ahead, the last of them next. -/
inductive TryDequeue
  | idle
  | scan (left nonEmptyCount : ℕ) (best : Option ℕ) (bestSize : UInt64)
  | scanned (tail : UInt64) (left nonEmptyCount : ℕ) (best : Option ℕ) (bestSize : UInt64)
  | best (best : ℕ)
  | again (best : ℕ)
  | rest (best left : ℕ)
  deriving DecidableEq

/-- The queue, the threads in `try_dequeue`, and what the calls have returned so far. -/
structure Queue (α ι : Type*) where
  producers : List (Producer α ι) := []
  calls : ι → TryDequeue := fun _ => .idle
  results : List (ι × Option α) := []
  fault : Bool := false

namespace Queue

/-- The queue with the thread `c` at `d`. -/
def goTo (q : Queue α ι) (c : ι) (d : TryDequeue) : Queue α ι :=
  { q with calls := Function.update q.calls c d }

/-- The call of the thread `c` returns. -/
def finish (q : Queue α ι) (c : ι) (found : Option α) : Queue α ι :=
  { q.goTo c .idle with results := q.results ++ [(c, found)] }

/-- A step of the thread `c` in `dequeue` of the producer `p`; if nothing is found, the call
    goes on at `next`. -/
def dequeueFrom (q : Queue α ι) (c : ι) (p : ℕ) (next : TryDequeue) : Option (Queue α ι) := do
  let (s, found) := (← q.producers[p]?).dequeue c
  let q := { q with producers := q.producers.set p s }
  match found with
  | none => return q
  | some none => return q.goTo c next
  | some (some x) => return q.finish c (some x)

/-- A step of the thread `c` in `try_dequeue`. -/
def tryDequeue (q : Queue α ι) (c : ι) : Option (Queue α ι) :=
  match q.calls c with
  | .idle => some (q.goTo c (.scan q.producers.length 0 none 0))
  | .scan left nonEmptyCount best bestSize =>
    if nonEmptyCount < 3 ∧ left ≠ 0 then do
      let ptr ← q.producers[left - 1]?
      return q.goTo c (.scanned ptr.tailIndex left nonEmptyCount best bestSize)
    else if nonEmptyCount > 0 then
      match best with
      | none => some { q with fault := true }
      | some best => some (q.goTo c (.best best))
    else
      some (q.finish c none)
  | .scanned tail left nonEmptyCount best bestSize => do
    let ptr ← q.producers[left - 1]?
    let size := Producer.sizeApprox tail ptr.headIndex
    if size > 0 then
      if size > bestSize then
        return q.goTo c (.scan (left - 1) (nonEmptyCount + 1) (some (left - 1)) size)
      else
        return q.goTo c (.scan (left - 1) (nonEmptyCount + 1) best bestSize)
    else
      return q.goTo c (.scan (left - 1) nonEmptyCount best bestSize)
  | .best best => q.dequeueFrom c best (.again best)
  | .again best => some (q.goTo c (.rest best q.producers.length))
  | .rest best left =>
    if left = 0 then
      some (q.finish c none)
    else if left - 1 = best then
      some (q.goTo c (.rest best (left - 1)))
    else
      q.dequeueFrom c (left - 1) (.rest best (left - 1))

end Queue

/-- A thread gets a producer; a thread begins or ends an `enqueue` at its producer; a thread
    takes a step in `try_dequeue`. -/
inductive Action (α ι : Type*)
  | join
  | enqueue (p : ℕ) (x : α) (memory : Bool)
  | publish (p : ℕ)
  | tryDequeue (c : ι)

/-- The queue under any interleaving of its threads. -/
def queue (α ι : Type*) [DecidableEq ι] : System (Queue α ι) (Action α ι) where
  init := {{}}
  step q
    | .join => some { q with producers := q.producers ++ [{}] }
    | .enqueue p x memory => do
      let s ← (← q.producers[p]?).enqueue x memory
      return { q with producers := q.producers.set p s }
    | .publish p => do
      let s ← (← q.producers[p]?).publish
      return { q with producers := q.producers.set p s }
    | .tryDequeue c => q.tryDequeue c

end BurstPoolNode.ConcurrentQueue
