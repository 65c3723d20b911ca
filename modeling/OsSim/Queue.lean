import OsSim.Slots

/-! queue.c: a ready queue is an array of process pointers with a size. -/
namespace OsSim
open Slots

def maxQueueSize : Nat := 10

/-- `struct queue_t`. The bound on the size is what keeps `proc` inside its array;
slots from `size` on hold whatever earlier calls left there. -/
structure Queue (α : Type*) where
  proc : Nat → α
  size : Nat
  slot : Nat
  size_le : size ≤ maxQueueSize

namespace Queue
variable {α : Type*}

def empty (q : Queue α) : Bool := q.size == 0

/-- A full queue is left as it is: the process is dropped without a word. -/
def enqueue (q : Queue α) (proc : α) : Queue α :=
  if room : q.size < maxQueueSize then
    { q with proc := Function.update q.proc q.size proc, size := q.size + 1, size_le := room }
  else q

/-- Index of the process `dequeue` picks, found by its first loop. -/
def highestPriorityIndex (priority : α → Nat) (q : Queue α) : Nat :=
  firstMax (fun i => priority (q.proc i)) q.size

/-- Second loop of `dequeue`: close the gap the picked process leaves. -/
def removeAt (q : Queue α) (index : Nat) : Queue α :=
  { q with
    proc := shiftDown q.proc (index + 1) (q.size - (index + 1))
    size := q.size - 1
    size_le := (Nat.sub_le _ _).trans q.size_le }

def dequeue (priority : α → Nat) (q : Queue α) : Option α × Queue α :=
  if q.size = 0 then (none, q)
  else
    let index := q.highestPriorityIndex priority
    (some (q.proc index), q.removeAt index)

/-- The waiting processes in the order they were enqueued. -/
def waiting (q : Queue α) : List α := listing q.proc q.size

@[simp] theorem waiting_length (q : Queue α) : q.waiting.length = q.size := by simp [waiting]

theorem waiting_eq_nil {q : Queue α} : q.waiting = [] ↔ q.size = 0 := by
  rw [← List.length_eq_zero_iff, waiting_length]

@[simp] theorem empty_iff {q : Queue α} : q.empty = true ↔ q.waiting = [] := by
  simp [empty, waiting_eq_nil]

theorem waiting_of_size_zero {q : Queue α} (h : q.size = 0) : q.waiting = [] :=
  waiting_eq_nil.mpr h

theorem enqueue_waiting (q : Queue α) (proc : α) :
    (q.enqueue proc).waiting =
      if q.size < maxQueueSize then q.waiting ++ [proc] else q.waiting := by
  unfold enqueue
  split
  · simp only [waiting, listing_succ, Function.update_self]
    congr 1
    apply listing_congr
    intro i before
    exact Function.update_of_ne (Nat.ne_of_lt before) _ _
  · rfl

theorem dequeue_nil (priority : α → Nat) {q : Queue α} (h : q.waiting = []) :
    q.dequeue priority = (none, q) := by
  unfold dequeue
  rw [if_pos (waiting_eq_nil.mp h)]

/-- The one fact about `dequeue` on a nonempty queue: it takes out one process, which
beats everything before it and is matched by nothing after it, and keeps the rest
in place. -/
theorem dequeue_split (priority : α → Nat) {q : Queue α} (h : q.waiting ≠ []) :
    ∃ older x newer q', q.dequeue priority = (some x, q') ∧
      q.waiting = older ++ x :: newer ∧ q'.waiting = older ++ newer ∧
      (∀ y ∈ older, priority y < priority x) ∧ (∀ y ∈ newer, priority y ≤ priority x) := by
  have nonempty : q.size ≠ 0 := fun zero => h (waiting_of_size_zero zero)
  set index := q.highestPriorityIndex priority with eq
  have within : index < q.size := firstMax_lt _ (Nat.pos_of_ne_zero nonempty)
  refine ⟨listing q.proc index, q.proc index,
    listing (fun j => q.proc (index + 1 + j)) (q.size - (index + 1)), q.removeAt index,
    ?_, ?_, ?_, ?_, ?_⟩
  · unfold dequeue
    rw [if_neg nonempty]
  · exact listing_split within
  · exact listing_shiftDown q.proc within
  · intro y member
    obtain ⟨i, before, rfl⟩ := mem_listing.mp member
    exact firstMax_first (fun i => priority (q.proc i)) before
  · intro y member
    obtain ⟨i, after, rfl⟩ := mem_listing.mp member
    exact firstMax_max (fun i => priority (q.proc i)) (by omega)

/-- What dequeue does to a queue, slot by slot: the process in slot `k` is returned, the other
ones keep their order, and no slot past the first `size - 1` is written. -/
structure Removes (q : Queue α) (k : Nat) (proc : Option α) (q' : Queue α) : Prop where
  returned : proc = some (q.proc k)
  size : q'.size + 1 = q.size
  others : q'.waiting = q.waiting.eraseIdx k
  frame : ∀ j, q'.size ≤ j → q'.proc j = q.proc j

theorem dequeue_removes (priority : α → Nat) {q : Queue α} (pos : 0 < q.size) :
    q.Removes (q.highestPriorityIndex priority) (q.dequeue priority).1 (q.dequeue priority).2 := by
  have within : q.highestPriorityIndex priority < q.size := firstMax_lt _ pos
  rw [dequeue, if_neg pos.ne']
  refine ⟨rfl, Nat.sub_add_cancel pos, ?_, ?_⟩
  · exact (listing_shiftDown q.proc within).trans (listing_eraseIdx within).symm
  · intro j past
    change q.size - 1 ≤ j at past
    exact (shiftDown_apply _ _ _ _).trans (if_neg (by omega))

/-- No slot from `size` on is read. -/
theorem dequeue_congr (priority : α → Nat) {q other : Queue α} (same : other.waiting = q.waiting) :
    (other.dequeue priority).1 = (q.dequeue priority).1 ∧
      (other.dequeue priority).2.waiting = (q.dequeue priority).2.waiting := by
  have sizes : other.size = q.size := by
    rw [← waiting_length, same, waiting_length]
  rcases Nat.eq_zero_or_pos q.size with zero | pos
  · rw [dequeue_nil priority (waiting_of_size_zero zero),
      dequeue_nil priority (waiting_of_size_zero (sizes.trans zero))]
    exact ⟨rfl, same⟩
  · have slots : ∀ i < q.size, other.proc i = q.proc i := by
      rw [waiting, waiting, sizes] at same
      exact listing_inj.mp same
    have index : other.highestPriorityIndex priority = q.highestPriorityIndex priority := by
      rw [highestPriorityIndex, sizes]
      exact firstMax_congr _ fun i within => congrArg priority (slots i within)
    have here := dequeue_removes priority pos
    have there := dequeue_removes priority (sizes ▸ pos)
    rw [index] at there
    rw [there.returned, here.returned, there.others, here.others, same]
    exact ⟨congrArg some (slots _ (firstMax_lt _ pos)), rfl⟩

/-- dequeue on every ready queue: it takes out the first of the processes of the highest
priority and no other one, within the array; an empty queue stays as it is. -/
theorem dequeue_stable (priority : α → Nat) (q : Queue α) :
    (q.size = 0 → q.dequeue priority = (none, q)) ∧
    (0 < q.size → ∃ k < q.size, (∀ i < q.size, priority (q.proc i) ≤ priority (q.proc k)) ∧
      (∀ i < k, priority (q.proc i) < priority (q.proc k)) ∧
      q.Removes k (q.dequeue priority).1 (q.dequeue priority).2) ∧
    ∀ other : Queue α, other.waiting = q.waiting →
      (other.dequeue priority).1 = (q.dequeue priority).1 ∧
        (other.dequeue priority).2.waiting = (q.dequeue priority).2.waiting := by
  refine ⟨fun zero => dequeue_nil priority (waiting_of_size_zero zero), fun pos => ?_,
    fun other same => dequeue_congr priority same⟩
  refine ⟨q.highestPriorityIndex priority, firstMax_lt _ pos, fun i within => ?_,
    fun i before => ?_, dequeue_removes priority pos⟩
  · exact firstMax_max (fun i => priority (q.proc i)) within
  · exact firstMax_first (fun i => priority (q.proc i)) before

end Queue
end OsSim
