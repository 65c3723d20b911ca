import OsSim.SchedPool
import Mathlib.Data.List.Infix

/-! The slot budget of the MLQ policy. init_scheduler gives level p the budget
MAX_PRIO - p, but get_mlq_proc counts it down in a local variable that starts afresh
at each call, so nothing carries over from one call to the next. -/
namespace OsSim
open Transition
namespace Sched

variable {α : Type*}

def OthersWait (s : Sched α) (p : Nat) : Prop := ∃ l, l < maxPrio ∧ l ≠ p ∧ s.level l ≠ []

instance (s : Sched α) (p : Nat) : Decidable (s.OthersWait p) :=
  inferInstanceAs (Decidable (∃ l, l < maxPrio ∧ _))

/-- `p` is the level strict priority serves next, although others wait too. -/
def Pressed (s : Sched α) (p : Nat) : Prop := s.Lowest p ∧ s.OthersWait p

/-- The get_proc calls that returned a process: the scheduler before, the process. -/
def served (prio priority : α → Nat) : Sched α → List (SchedOp α) → List (Sched α × α)
  | _, [] => []
  | s, op :: ops =>
      let r := s.call prio priority op
      match r.1 with
      | some x => (s, x) :: served prio priority r.2 ops
      | none => served prio priority r.2 ops

/-- The schedulers at the get_proc calls made while some process waits. -/
def busyCalls (prio priority : α → Nat) : Sched α → List (SchedOp α) → List (Sched α)
  | _, [] => []
  | s, op :: ops =>
      let rest := busyCalls prio priority (s.call prio priority op).2 ops
      match op with
      | .get => if ∃ l, l < maxPrio ∧ s.level l ≠ [] then s :: rest else rest
      | .add _ | .put _ => rest

/-- No level serves more than its budget of successive calls at which others wait. -/
def KeepsBudget (prio : α → Nat) (log : List (Sched α × α)) : Prop :=
  ∀ p < maxPrio, ∀ streak, streak <:+: log →
    (∀ e ∈ streak, prio e.2 = p ∧ e.1.OthersWait p) → streak.length ≤ maxPrio - p

/-- A process waits at the level of its prio, and the static never moves. -/
structure Sorted (prio : α → Nat) (s : Sched α) : Prop where
  static : s.currentPrio = 0
  sorted : ∀ l < maxPrio, ∀ x ∈ s.level l, prio x = l

section Sorted
variable {prio : α → Nat} (priority : α → Nat) {s : Sched α}

theorem Sorted.init (static : s.currentPrio = 0) : Sorted prio s.initScheduler :=
  ⟨static, fun _ inside _ member => by simp [initScheduler_level s inside] at member⟩

theorem Sorted.add (sorted : Sorted prio s) (proc : α) : Sorted prio (s.addMlqProc prio proc) := by
  refine ⟨sorted.static, ?_⟩
  intro l inside x member
  rw [addMlqProc_level] at member
  split at member
  · rename_i here
    rcases List.mem_append.mp member with old | new
    · exact sorted.sorted l inside x old
    · rw [List.mem_singleton.mp new]
      exact here.1.symm
  · exact sorted.sorted l inside x member

theorem Sorted.get (sorted : Sorted prio s) :
    ((∀ l < maxPrio, s.level l = []) ∧ s.getMlqProc priority = (none, s)) ∨
    ∃ x s', s.getMlqProc priority = (some x, s') ∧ s.Lowest (prio x) ∧ Sorted prio s' := by
  rcases getMlqProc_cases priority sorted.static with
    idle | ⟨p, older, x, newer, s', lowest, eq, static, level, after, _⟩
  · exact .inl idle
  · right
    have here : prio x = p := sorted.sorted p lowest.1 x (by rw [level]; simp)
    refine ⟨x, s', eq, here ▸ lowest, static, ?_⟩
    intro l inside y member
    rw [after] at member
    split at member
    · rename_i same
      subst same
      apply sorted.sorted l inside y
      rw [level]
      rcases List.mem_append.mp member with left | right
      · exact List.mem_append_left _ left
      · exact List.mem_append_right _ (List.mem_cons_of_mem x right)
    · exact sorted.sorted l inside y member

theorem Sorted.call (sorted : Sorted prio s) (op : SchedOp α) :
    Sorted prio (s.call prio priority op).2 := by
  cases op with
  | add proc => exact sorted.add proc
  | put proc => exact sorted.add proc
  | get =>
      rcases sorted.get priority with ⟨_, eq⟩ | ⟨x, s', eq, _, after⟩
      · simpa only [Sched.call, eq] using sorted
      · simpa only [Sched.call, eq] using after

theorem Sorted.served_calls (sorted : Sorted prio s) (ops : List (SchedOp α)) :
    (served prio priority s ops).map Prod.fst = busyCalls prio priority s ops := by
  induction ops generalizing s with
  | nil => rfl
  | cons op ops ih =>
      have rest := ih (sorted.call priority op)
      cases op with
      | add proc => exact rest
      | put proc => exact rest
      | get =>
          simp only [served, busyCalls, Sched.call] at rest ⊢
          rcases sorted.get priority with ⟨empty, eq⟩ | ⟨x, s', eq, lowest, _⟩
          · have none_waits : ¬ ∃ l, l < maxPrio ∧ s.level l ≠ [] :=
              fun ⟨l, inside, occupied⟩ => occupied (empty l inside)
            rw [eq] at rest ⊢
            rw [if_neg none_waits]
            exact rest
          · rw [eq] at rest ⊢
            rw [if_pos ⟨prio x, lowest.1, lowest.2.1⟩]
            exact congrArg (s :: ·) rest

theorem Sorted.served_lowest (sorted : Sorted prio s) (ops : List (SchedOp α)) :
    ∀ e ∈ served prio priority s ops, e.1.Lowest (prio e.2) := by
  induction ops generalizing s with
  | nil => exact fun e member => absurd member List.not_mem_nil
  | cons op ops ih =>
      have rest := ih (sorted.call priority op)
      cases op with
      | add proc => exact rest
      | put proc => exact rest
      | get =>
          simp only [served, Sched.call] at rest ⊢
          rcases sorted.get priority with ⟨_, eq⟩ | ⟨x, s', eq, lowest, _⟩
          · rw [eq] at rest ⊢
            exact rest
          · rw [eq] at rest ⊢
            intro e member
            rcases List.mem_cons.mp member with rfl | later
            · exact lowest
            · exact rest e later

end Sorted

theorem Lowest.unique {s : Sched α} {p q : Nat} (hp : s.Lowest p) (hq : s.Lowest q) : p = q := by
  rcases Nat.lt_trichotomy p q with less | same | more
  · exact absurd (hq.2.2 p less) hp.2.1
  · exact same
  · exact absurd (hp.2.2 q more) hq.2.1

/-- The budget is kept exactly when the callers never ask for more: no level is the
smallest occupied one, with another occupied, for longer than its budget. -/
theorem keepsBudget_iff (prio priority : α → Nat) (boot : Sched α) (static : boot.currentPrio = 0)
    (ops : List (SchedOp α)) :
    KeepsBudget prio (served prio priority boot.initScheduler ops) ↔
      ∀ p < maxPrio, ∀ window, window <:+: busyCalls prio priority boot.initScheduler ops →
        (∀ s ∈ window, s.Pressed p) → window.length ≤ maxPrio - p := by
  have sorted : Sorted prio boot.initScheduler := Sorted.init static
  have lowest := sorted.served_lowest priority ops
  rw [← sorted.served_calls priority]
  constructor
  · intro kept p inside window infix_window pressed
    obtain ⟨streak, within, rfl⟩ := List.infix_map_iff.mp infix_window
    rw [List.length_map]
    apply kept p inside streak within
    intro e member
    have here := pressed e.1 (List.mem_map_of_mem member)
    exact ⟨(lowest e (within.subset member)).unique here.1, here.2⟩
  · intro demand p inside streak within overstays
    rw [← List.length_map (f := Prod.fst)]
    apply demand p inside _ (within.map Prod.fst)
    intro s member
    obtain ⟨e, in_streak, rfl⟩ := List.mem_map.mp member
    obtain ⟨here, others⟩ := overstays e in_streak
    exact ⟨here ▸ lowest e (within.subset in_streak), others⟩

/-- Processes 0, 1, 2 of prio 138 and process 3 of prio 139: level 138 has a budget of
two, yet all three of its processes are served while process 3 waits. -/
theorem budget_overrun :
    ¬ KeepsBudget (fun p => if p = 3 then 139 else 138)
      (served (fun p => if p = 3 then 139 else 138) (fun _ => 0) (boot Nat).initScheduler
        [.add 0, .add 1, .add 2, .add 3, .get, .get, .get]) := by
  intro kept
  have overstays : ∀ e ∈ served (fun p => if p = 3 then 139 else 138) (fun _ => 0)
      (boot Nat).initScheduler [.add 0, .add 1, .add 2, .add 3, .get, .get, .get],
      (if e.2 = 3 then 139 else 138) = 138 ∧ e.1.OthersWait 138 := by decide +kernel
  have three : (served (fun p => if p = 3 then 139 else 138) (fun _ => 0)
      (boot Nat).initScheduler [.add 0, .add 1, .add 2, .add 3, .get, .get, .get]).length = 3 := by
    decide +kernel
  have short := kept 138 (by decide) _ List.infix_rfl overstays
  rw [three] at short
  exact absurd short (by decide)

theorem keepsBudget_iff_two :
    KeepsBudget id (served id (fun _ => 0) (boot Nat).initScheduler [.add 5, .add 9, .get, .get]) ↔
      ∀ p < maxPrio, ∀ window,
        window <:+: busyCalls id (fun _ => 0) (boot Nat).initScheduler
          [.add 5, .add 9, .get, .get] →
        (∀ s ∈ window, s.Pressed p) → window.length ≤ maxPrio - p :=
  keepsBudget_iff id (fun _ => 0) (boot Nat) rfl [.add 5, .add 9, .get, .get]

end Sched
end OsSim
