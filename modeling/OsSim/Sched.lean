import Mathlib.Data.Nat.Find
import OsSim.Queue

/-! sched.c with MLQ_SCHED: one ready queue for each priority level. The process
type is a parameter; `prio` and `priority` read the two fields of its pcb. -/
namespace OsSim

def maxPrio : Nat := 140

/-- `mlq_ready_queue` and the static `currentPrio` of get_mlq_proc. -/
structure Sched (α : Type*) where
  mlqReadyQueue : Nat → Queue α
  currentPrio : Nat

inductive SchedOp (α : Type*) where
  | add (proc : α)
  | put (proc : α)
  | get
  deriving DecidableEq

namespace Sched
variable {α : Type*}

/-- The processes waiting at a level, oldest first. -/
def level (s : Sched α) (p : Nat) : List α := (s.mlqReadyQueue p).waiting

def setQueue (s : Sched α) (p : Nat) (q : Queue α) : Sched α :=
  { s with mlqReadyQueue := Function.update s.mlqReadyQueue p q }

/-- init_scheduler empties the levels; the static of get_mlq_proc is not reset. -/
def initScheduler (s : Sched α) : Sched α :=
  { s with mlqReadyQueue := fun i =>
      if i < maxPrio then
        { s.mlqReadyQueue i with size := 0, slot := maxPrio - i, size_le := Nat.zero_le _ }
      else s.mlqReadyQueue i }

/-- The loop of get_mlq_proc from a given attempt on, with the attempts left. The
remaining `slot` is a local variable of the call and is dropped on return. -/
def searchLoop (priority : α → Nat) (s : Sched α) (slot : Int) (attempt : Nat) :
    Nat → Option α × Sched α
  | 0 => (none, s)
  | left + 1 =>
      let prio := (s.currentPrio + attempt) % maxPrio
      if (s.mlqReadyQueue prio).empty then searchLoop priority s slot (attempt + 1) left
      else if slot - attempt > 0 then
        let r := (s.mlqReadyQueue prio).dequeue priority
        (r.1, s.setQueue prio r.2)
      else (none, { s with currentPrio := (prio + 1) % maxPrio })

def getMlqProc (priority : α → Nat) (s : Sched α) : Option α × Sched α :=
  searchLoop priority s (maxPrio - s.currentPrio) 0 maxPrio

def putMlqProc (prio : α → Nat) (s : Sched α) (proc : α) : Sched α :=
  s.setQueue (prio proc) ((s.mlqReadyQueue (prio proc)).enqueue proc)

def addMlqProc (prio : α → Nat) (s : Sched α) (proc : α) : Sched α :=
  s.setQueue (prio proc) ((s.mlqReadyQueue (prio proc)).enqueue proc)

/-- One call and the process it returns; put and add return none. -/
def call (prio priority : α → Nat) (s : Sched α) : SchedOp α → Option α × Sched α
  | .add proc => (none, s.addMlqProc prio proc)
  | .put proc => (none, s.putMlqProc prio proc)
  | .get => s.getMlqProc priority

theorem setQueue_level (s : Sched α) (p l : Nat) (q : Queue α) :
    (s.setQueue p q).level l = if l = p then q.waiting else s.level l := by
  simp only [setQueue, level, Function.update_apply]
  split <;> rfl

theorem initScheduler_level (s : Sched α) {p : Nat} (h : p < maxPrio) :
    s.initScheduler.level p = [] := by
  simp [initScheduler, level, h, Queue.waiting]

def Full (s : Sched α) (p : Nat) : Prop := maxQueueSize ≤ (s.level p).length

instance (s : Sched α) (p : Nat) : Decidable (s.Full p) := inferInstanceAs (Decidable (_ ≤ _))

theorem size_eq_level (s : Sched α) (p : Nat) : (s.mlqReadyQueue p).size = (s.level p).length := by
  simp [level]

theorem addMlqProc_level (prio : α → Nat) (s : Sched α) (proc : α) (l : Nat) :
    (s.addMlqProc prio proc).level l =
      if l = prio proc ∧ ¬ s.Full l then s.level l ++ [proc] else s.level l := by
  simp only [addMlqProc, setQueue_level, Queue.enqueue_waiting, size_eq_level, Full, not_le]
  by_cases same : l = prio proc
  · subst same
    simp only [true_and, if_true]
    rfl
  · simp [same]

/-- While `currentPrio` is 0 the search reaches the smallest occupied level with a
positive slot, so the branch that moves `currentPrio` is not taken. -/
theorem searchLoop_first (priority : α → Nat) {s : Sched α} (zero : s.currentPrio = 0)
    {p : Nat} (h : p < maxPrio) (occupied : s.level p ≠ []) (below : ∀ l < p, s.level l = [])
    {attempt left : Nat} (sum : attempt + left = maxPrio) (before : attempt ≤ p) :
    searchLoop priority s maxPrio attempt left =
      (((s.mlqReadyQueue p).dequeue priority).1,
        s.setQueue p ((s.mlqReadyQueue p).dequeue priority).2) := by
  induction left generalizing attempt with
  | zero => omega
  | succ left ih =>
      have here : (s.currentPrio + attempt) % maxPrio = attempt := by
        rw [zero, Nat.zero_add, Nat.mod_eq_of_lt (by omega)]
      simp only [searchLoop, here]
      rcases Nat.lt_or_eq_of_le before with later | rfl
      · rw [if_pos (Queue.empty_iff.mpr (below attempt later))]
        exact ih (by omega) later
      · rw [if_neg (fun empty => occupied (Queue.empty_iff.mp empty)), if_pos (by omega)]

theorem searchLoop_none (priority : α → Nat) {s : Sched α} (zero : s.currentPrio = 0)
    (empty : ∀ l < maxPrio, s.level l = []) (slot : Int) {attempt left : Nat}
    (sum : attempt + left = maxPrio) : searchLoop priority s slot attempt left = (none, s) := by
  induction left generalizing attempt with
  | zero => rfl
  | succ left ih =>
      have here : (s.currentPrio + attempt) % maxPrio = attempt := by
        rw [zero, Nat.zero_add, Nat.mod_eq_of_lt (by omega)]
      simp only [searchLoop, here]
      rw [if_pos (Queue.empty_iff.mpr (empty attempt (by omega)))]
      exact ih (by omega)

/-- The smallest occupied level. -/
def Lowest (s : Sched α) (p : Nat) : Prop :=
  p < maxPrio ∧ s.level p ≠ [] ∧ ∀ l < p, s.level l = []

theorem lowest_or_empty (s : Sched α) :
    (∀ l < maxPrio, s.level l = []) ∨ ∃ p, s.Lowest p := by
  classical
  by_cases some_level : ∃ l, l < maxPrio ∧ s.level l ≠ []
  · right
    obtain ⟨inside, occupied⟩ := Nat.find_spec some_level
    refine ⟨Nat.find some_level, inside, occupied, ?_⟩
    intro l before
    by_contra nonempty
    exact Nat.find_min some_level before ⟨before.trans inside, nonempty⟩
  · left
    intro l inside
    by_contra nonempty
    exact some_level ⟨l, inside, nonempty⟩

theorem getMlqProc_none (priority : α → Nat) {s : Sched α} (zero : s.currentPrio = 0)
    (empty : ∀ l < maxPrio, s.level l = []) : s.getMlqProc priority = (none, s) :=
  searchLoop_none priority zero empty _ (Nat.zero_add _)

theorem getMlqProc_lowest (priority : α → Nat) {s : Sched α} (zero : s.currentPrio = 0)
    {p : Nat} (lowest : s.Lowest p) :
    s.getMlqProc priority = (((s.mlqReadyQueue p).dequeue priority).1,
      s.setQueue p ((s.mlqReadyQueue p).dequeue priority).2) := by
  have slot : ((maxPrio : Int) - (s.currentPrio : Int)) = maxPrio := by simp [zero]
  unfold getMlqProc
  rw [slot]
  exact searchLoop_first priority zero lowest.1 lowest.2.1 lowest.2.2 (Nat.zero_add _)
    (Nat.zero_le _)

/-- What get_mlq_proc does while `currentPrio` is 0: nothing when no process waits,
else it takes out the first largest process of the smallest occupied level. -/
theorem getMlqProc_cases (priority : α → Nat) {s : Sched α} (zero : s.currentPrio = 0) :
    ((∀ l < maxPrio, s.level l = []) ∧ s.getMlqProc priority = (none, s)) ∨
    ∃ p older x newer s', s.Lowest p ∧ s.getMlqProc priority = (some x, s') ∧
      s'.currentPrio = 0 ∧ s.level p = older ++ x :: newer ∧
      (∀ l, s'.level l = if l = p then older ++ newer else s.level l) ∧
      (∀ y ∈ older, priority y < priority x) ∧ (∀ y ∈ newer, priority y ≤ priority x) := by
  rcases s.lowest_or_empty with empty | ⟨p, lowest⟩
  · exact .inl ⟨empty, getMlqProc_none priority zero empty⟩
  · right
    obtain ⟨older, x, newer, q', taken, before, after, larger, atLeast⟩ :=
      Queue.dequeue_split priority lowest.2.1
    refine ⟨p, older, x, newer, s.setQueue p q', lowest, ?_, zero, before, ?_, larger, atLeast⟩
    · rw [getMlqProc_lowest priority zero lowest, taken]
    · intro l
      rw [setQueue_level, after]

end Sched
end OsSim
