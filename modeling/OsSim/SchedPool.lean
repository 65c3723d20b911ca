import OsSim.Sched
import OsSim.PriorityPool
import OsSim.Transition

/-! The scheduler as a priority pool: smallest prio, then largest priority, then
longest wait. The levels are the pool sorted by prio, each in order of arrival. -/
namespace OsSim
open Transition
namespace Sched

variable {α : Type*}

def Better (prio priority : α → Nat) (x y : α) : Prop :=
  prio x < prio y ∨ prio x = prio y ∧ priority y < priority x

instance (prio priority : α → Nat) : DecidableRel (Better prio priority) :=
  fun _ _ => inferInstanceAs (Decidable (_ ∨ _))

theorem incompRel_better {prio priority : α → Nat} {x y : α} :
    IncompRel (Better prio priority) x y ↔ prio y = prio x ∧ priority y = priority x := by
  unfold IncompRel Better
  omega

instance (prio priority : α → Nat) : IsStrictWeakOrder α (Better prio priority) where
  irrefl x := by
    unfold Better
    omega
  trans x y z := by
    unfold Better
    omega
  incomp_trans x y z first second := by
    obtain ⟨prio_first, first⟩ := incompRel_better.mp first
    obtain ⟨prio_second, second⟩ := incompRel_better.mp second
    exact incompRel_better.mpr ⟨prio_second.trans prio_first, second.trans first⟩

def request : SchedOp α → PriorityPool.Request α
  | .add proc | .put proc => .submit proc
  | .get => .serve

/-- The process of an enqueueing call has a level, and that level has a free slot. -/
def Admits (prio : α → Nat) (s : Sched α) : SchedOp α → Prop
  | .add proc | .put proc => prio proc < maxPrio ∧ ¬ s.Full (prio proc)
  | .get => True

instance (prio : α → Nat) (s : Sched α) : DecidablePred (s.Admits prio)
  | .add _ | .put _ => inferInstanceAs (Decidable (_ ∧ ¬ _))
  | .get => .isTrue trivial

/-- The scheduler as a transition function; every call returns. -/
def next (prio priority : α → Nat) (s : Sched α) (op : SchedOp α) : Option (Sched α) :=
  some (s.call prio priority op).2

/-- The answers of a sequence of calls, and the scheduler after it. -/
def callAll (prio priority : α → Nat) : Sched α → List (SchedOp α) → List (Option α) × Sched α
  | s, [] => ([], s)
  | s, op :: ops =>
      let r := s.call prio priority op
      let rest := callAll prio priority r.2 ops
      (r.1 :: rest.1, rest.2)

/-- The pool held by the levels. -/
structure Holds (prio : α → Nat) (pool : List α) (s : Sched α) : Prop where
  static : s.currentPrio = 0
  bounded : ∀ x ∈ pool, prio x < maxPrio
  levels : ∀ l < maxPrio, s.level l = pool.filter (fun x => prio x = l)

section Simulation
variable {prio priority : α → Nat} {s : Sched α} {pool : List α}

theorem Holds.init (static : s.currentPrio = 0) : Holds prio [] s.initScheduler :=
  ⟨static, by simp, fun _ inside => by rw [initScheduler_level s inside, List.filter_nil]⟩

theorem Holds.submit (holds : Holds prio pool s) {proc : α} (inside : prio proc < maxPrio)
    (room : ¬ s.Full (prio proc)) : Holds prio (pool ++ [proc]) (s.addMlqProc prio proc) := by
  refine ⟨holds.static, ?_, ?_⟩
  · intro x member
    rcases List.mem_append.mp member with old | new
    · exact holds.bounded x old
    · rw [List.mem_singleton.mp new]
      exact inside
  · intro l below
    rw [addMlqProc_level, List.filter_append, holds.levels l below]
    by_cases same : l = prio proc
    · subst same
      rw [if_pos ⟨rfl, room⟩]
      simp
    · rw [if_neg (fun both => same both.1)]
      simp [Ne.symm same]

theorem Holds.nil_of_empty (holds : Holds prio pool s)
    (empty : ∀ l < maxPrio, s.level l = []) : pool = [] := by
  apply List.eq_nil_iff_forall_not_mem.mpr
  intro x member
  have inside := holds.bounded x member
  have filtered := (holds.levels _ inside).symm.trans (empty _ inside)
  exact List.filter_eq_nil_iff.mp filtered x member (by simp)

theorem Holds.lowest_le (holds : Holds prio pool s) {p : Nat} (lowest : s.Lowest p) {x : α}
    (member : x ∈ pool) : p ≤ prio x := by
  by_contra smaller
  have inside := holds.bounded x member
  have filtered := (holds.levels _ inside).symm.trans (lowest.2.2 _ (Nat.lt_of_not_le smaller))
  exact List.filter_eq_nil_iff.mp filtered x member (by simp)

theorem Holds.serve (holds : Holds prio pool s) :
    ∃ pool', PriorityPool.Step (Better prio priority) pool .serve
        (s.getMlqProc priority).1 pool' ∧ Holds prio pool' (s.getMlqProc priority).2 := by
  rcases getMlqProc_cases priority holds.static with
    ⟨empty, eq⟩ | ⟨p, older, x, newer, s', lowest, eq, static, level, after, larger, atLeast⟩
  · obtain rfl := holds.nil_of_empty empty
    rw [eq]
    exact ⟨[], .idle, holds⟩
  · rw [eq]
    rw [holds.levels p lowest.1] at level
    obtain ⟨before, behind, rfl, found, rfl, rfl⟩ := PriorityPool.split_of_filter level
    have here : prio x = p := of_decide_eq_true found
    have in_before : ∀ y ∈ before, prio y = p → y ∈ before.filter (fun z => prio z = p) :=
      fun y member same => List.mem_filter.mpr ⟨member, by simp [same]⟩
    have in_behind : ∀ y ∈ behind, prio y = p → y ∈ behind.filter (fun z => prio z = p) :=
      fun y member same => List.mem_filter.mpr ⟨member, by simp [same]⟩
    refine ⟨before ++ behind, .serve ?_ ?_, static, ?_, ?_⟩
    · intro y member
      have atMost := holds.lowest_le lowest (List.mem_append_left _ member)
      rcases Nat.lt_or_eq_of_le atMost with less | same
      · exact .inl (here ▸ less)
      · exact .inr ⟨here.trans same, larger y (in_before y member same.symm)⟩
    · intro y member better
      have atMost := holds.lowest_le lowest
        (List.mem_append_right before (List.mem_cons_of_mem x member))
      rcases better with less | ⟨same, more⟩
      · omega
      · exact absurd (atLeast y (in_behind y member (same.trans here))) (Nat.not_le.mpr more)
    · intro y member
      apply holds.bounded y
      rcases List.mem_append.mp member with left | right
      · exact List.mem_append_left _ left
      · exact List.mem_append_right _ (List.mem_cons_of_mem x right)
    · intro l inside
      rw [after, List.filter_append]
      by_cases same : l = p
      · subst same
        rw [if_pos rfl]
      · rw [if_neg same, holds.levels l inside, List.filter_append,
          List.filter_cons_of_neg (by simp [here, Ne.symm same])]

variable (priority) in
theorem Holds.call (holds : Holds prio pool s) {op : SchedOp α} (admits : s.Admits prio op) :
    ∃ pool', PriorityPool.Step (Better prio priority) pool (request op)
        (s.call prio priority op).1 pool' ∧ Holds prio pool' (s.call prio priority op).2 := by
  cases op with
  | add proc => exact ⟨_, .submit pool proc, holds.submit admits.1 admits.2⟩
  | put proc => exact ⟨_, .submit pool proc, holds.submit admits.1 admits.2⟩
  | get => exact holds.serve

theorem Holds.callAll (holds : Holds prio pool s) {ops : List (SchedOp α)}
    (room : EachStep (next prio priority) (Admits prio) s ops) :
    ∃ pool', PriorityPool.Run (Better prio priority) pool
        ((ops.map request).zip (callAll prio priority s ops).1) pool' ∧
      Holds prio pool' (callAll prio priority s ops).2 := by
  induction ops generalizing s pool with
  | nil => exact ⟨pool, .nil pool, holds⟩
  | cons op ops ih =>
      obtain ⟨admits, rest⟩ := room _ rfl
      obtain ⟨middle, step, held⟩ := holds.call priority admits
      obtain ⟨pool', run, final⟩ := ih held rest
      exact ⟨pool', .cons step run, final⟩

end Simulation

/-- From init_scheduler on, with no enqueue on a full level, the scheduler answers
every sequence of calls as the priority pool does and holds the same processes. -/
theorem scheduler_refines_pool (prio priority : α → Nat) (boot : Sched α)
    (static : boot.currentPrio = 0) (ops : List (SchedOp α))
    (room : EachStep (next prio priority) (Admits prio) boot.initScheduler ops) :
    ∃ pool, PriorityPool.Run (Better prio priority) []
        ((ops.map request).zip (callAll prio priority boot.initScheduler ops).1) pool ∧
      Holds prio pool (callAll prio priority boot.initScheduler ops).2 :=
  (Holds.init static).callAll room

/-- The static of get_mlq_proc and the levels as the program starts with them. -/
def boot (α : Type*) [Inhabited α] : Sched α where
  mlqReadyQueue := fun _ => ⟨fun _ => default, 0, 0, Nat.zero_le _⟩
  currentPrio := 0

/-- Two levels and a tie: the pool's order shows in the answers 3, 1, 2. -/
theorem scheduler_refines_pool_three : ∃ pool,
    PriorityPool.Run (Better (fun p => if p = 3 then 0 else 1) (fun _ => 7)) []
      (([SchedOp.add 1, .add 2, .put 3, .get, .get, .get].map request).zip
        [none, none, none, some 3, some 1, some 2]) pool ∧
    Holds (fun p => if p = 3 then 0 else 1) pool
      (callAll (fun p => if p = 3 then 0 else 1) (fun _ => 7) (boot Nat).initScheduler
        [.add 1, .add 2, .put 3, .get, .get, .get]).2 :=
  scheduler_refines_pool (fun p => if p = 3 then 0 else 1) (fun _ => 7) (boot Nat) rfl
    [.add 1, .add 2, .put 3, .get, .get, .get] (by decide)

end Sched
end OsSim
