import Mathlib.Data.List.Basic
import Mathlib.Logic.Function.Iterate
import Mathlib.Logic.Relation

/-! Runs of a deterministic labelled transition function. A label names the
thread that moves, a run is the list of its labels, and `none` is a label that
is not enabled. Nothing here depends on what the states are. -/
namespace Transition

variable {S T A B : Type*}

/-- Execute a list of labels; the first one that is not enabled fails the run. -/
def run (step : S → A → Option S) : S → List A → Option S
  | s, [] => some s
  | s, a :: as => (step s a).bind fun t => run step t as

def Reach (step : S → A → Option S) (s t : S) : Prop := ∃ as, run step s as = some t

/-- The property holds in every state the run visits, its first one included. -/
def Always (step : S → A → Option S) (P : S → Prop) : S → List A → Prop
  | s, [] => P s
  | s, a :: as => P s ∧ ∀ t, step s a = some t → Always step P t as

/-- Every step the run takes starts from a state and a label that meet the guard. -/
def EachStep (step : S → A → Option S) (G : S → A → Prop) : S → List A → Prop
  | _, [] => True
  | s, a :: as => ∀ t, step s a = some t → G s a ∧ EachStep step G t as

section Runs
variable {step : S → A → Option S}

@[simp] theorem run_nil (s : S) : run step s [] = some s := rfl

@[simp] theorem run_cons (s : S) (a : A) (as : List A) :
    run step s (a :: as) = (step s a).bind fun t => run step t as := rfl

theorem run_append (s : S) (as bs : List A) :
    run step s (as ++ bs) = (run step s as).bind fun t => run step t bs := by
  induction as generalizing s with
  | nil => rfl
  | cons a as ih =>
      simp only [List.cons_append, run_cons, Option.bind_assoc]
      congr 1
      funext t
      exact ih t

theorem Reach.refl (s : S) : Reach step s s := ⟨[], rfl⟩

theorem Reach.trans {s t u : S} (first : Reach step s t) (second : Reach step t u) :
    Reach step s u := by
  obtain ⟨as, first⟩ := first
  obtain ⟨bs, second⟩ := second
  exact ⟨as ++ bs, by rw [run_append, first]; exact second⟩

theorem Reach.tail {s t u : S} {a : A} (reach : Reach step s t) (last : step t a = some u) :
    Reach step s u :=
  reach.trans ⟨[a], by simp [last]⟩

/-- The invariant rule over one run: what every step keeps, a run keeps. -/
theorem run_invariant {P : S → Prop} (keep : ∀ s a t, P s → step s a = some t → P t)
    {s t : S} {as : List A} (h : run step s as = some t) (hs : P s) : P t := by
  induction as generalizing s with
  | nil => exact Option.some.inj h ▸ hs
  | cons a as ih =>
      obtain ⟨u, first, rest⟩ := Option.bind_eq_some_iff.mp h
      exact ih rest (keep s a u hs first)

theorem Reach.invariant {P : S → Prop} (keep : ∀ s a t, P s → step s a = some t → P t)
    {s t : S} (reach : Reach step s t) (hs : P s) : P t := by
  obtain ⟨as, h⟩ := reach
  exact run_invariant keep h hs

/-- A part of the state that the own labels move by one function, and all others keep, has
moved once for each own label of the run. -/
theorem run_iterate {I : S → Prop} (own : A → Prop) [DecidablePred own] {f : S → T} {next : T → T}
    (moves : ∀ s a t, I s → step s a = some t → I t ∧ f t = if own a then next (f s) else f s)
    {s t : S} {as : List A} (h : run step s as = some t) (hs : I s) :
    I t ∧ f t = next^[as.countP (own ·)] (f s) := by
  induction as generalizing s with
  | nil => exact Option.some.inj h ▸ ⟨hs, rfl⟩
  | cons a as ih =>
      obtain ⟨u, first, rest⟩ := Option.bind_eq_some_iff.mp h
      obtain ⟨kept, moved⟩ := moves s a u hs first
      obtain ⟨kept', moved'⟩ := ih rest kept
      refine ⟨kept', moved'.trans ?_⟩
      rw [moved]
      by_cases mine : own a
      · simp [mine]
      · simp [mine]

/-- Where the clock stands still the rank falls, and where it ticks the rank is `top` at most
again: a run has few steps for each tick. -/
theorem length_le_of_rank {I : S → Prop} {own : A → Prop} {clock rank : S → Nat} {top : Nat}
    (keep : ∀ s a t, I s → step s a = some t → I t)
    (pays : ∀ s a t, I s → own a → step s a = some t →
      clock t = clock s ∧ rank t < rank s ∨ clock t = clock s + 1 ∧ rank t ≤ top)
    {s t : S} {as : List A} (h : run step s as = some t) (hs : I s) (all : ∀ a ∈ as, own a) :
    as.length + rank t + clock s * (top + 1) ≤ rank s + clock t * (top + 1) := by
  induction as generalizing s with
  | nil =>
      obtain rfl := Option.some.inj h
      exact (Nat.le_of_eq (by rw [List.length_nil, Nat.zero_add]))
  | cons a as ih =>
      obtain ⟨u, first, rest⟩ := Option.bind_eq_some_iff.mp h
      have later := ih rest (keep s a u hs first) fun b member =>
        all b (List.mem_cons_of_mem a member)
      rw [List.length_cons]
      rcases pays s a u hs (all a List.mem_cons_self) first with ⟨still, falls⟩ | ⟨ticks, again⟩
      · rw [still] at later
        omega
      · rw [ticks, Nat.add_mul, Nat.one_mul] at later
        omega

/-- Where an own label is left in every state to come, there are runs of them of any length. -/
theorem long_run (own : A → Prop) {s : S}
    (goes : ∀ t, Reach step s t → ∃ a, own a ∧ (step t a).isSome) (n : Nat) :
    ∃ as t, run step s as = some t ∧ (∀ a ∈ as, own a) ∧ as.length = n := by
  induction n with
  | zero => exact ⟨[], s, rfl, List.forall_mem_nil _, rfl⟩
  | succ n ih =>
      obtain ⟨as, t, runs, all, length⟩ := ih
      obtain ⟨a, mine, enabled⟩ := goes t ⟨as, runs⟩
      obtain ⟨u, moved⟩ := Option.isSome_iff_exists.mp enabled
      refine ⟨as ++ [a], u, ?_, ?_, ?_⟩
      · rw [run_append, runs, Option.bind_some, run_cons, moved]
        rfl
      · exact List.forall_mem_append.mpr ⟨all, List.forall_mem_singleton.mpr mine⟩
      · rw [List.length_append, List.length_singleton, length]

theorem Always.last {P : S → Prop} {s t : S} {as : List A} (always : Always step P s as)
    (h : run step s as = some t) : P t := by
  induction as generalizing s with
  | nil => exact Option.some.inj h ▸ always
  | cons a as ih =>
      obtain ⟨u, first, rest⟩ := Option.bind_eq_some_iff.mp h
      exact ih (always.2 u first) rest

theorem Always.head {P : S → Prop} {s : S} {as : List A} (always : Always step P s as) : P s := by
  cases as with
  | nil => exact always
  | cons a as => exact always.1

theorem EachStep.of_append {G : S → A → Prop} {s t : S} {as bs : List A}
    (each : EachStep step G s (as ++ bs)) (h : run step s as = some t) :
    EachStep step G s as ∧ EachStep step G t bs := by
  induction as generalizing s with
  | nil => exact Option.some.inj h ▸ ⟨trivial, each⟩
  | cons a as ih =>
      obtain ⟨u, first, rest⟩ := Option.bind_eq_some_iff.mp h
      obtain ⟨guard, later⟩ := each u first
      obtain ⟨front, back⟩ := ih later rest
      refine ⟨?_, back⟩
      intro v same
      obtain rfl := Option.some.inj (first.symm.trans same)
      exact ⟨guard, front⟩

/-- The invariant rule under a guard: steps that meet it keep the property. -/
theorem EachStep.always {G : S → A → Prop} {P : S → Prop}
    (keep : ∀ s a t, P s → G s a → step s a = some t → P t)
    {s : S} {as : List A} (each : EachStep step G s as) (hs : P s) : Always step P s as := by
  induction as generalizing s with
  | nil => exact hs
  | cons a as ih =>
      refine ⟨hs, ?_⟩
      intro t first
      obtain ⟨guard, rest⟩ := each t first
      exact ih rest (keep s a t hs guard first)

/-- Where a step keeps the property exactly when it meets the guard, a run has the
property throughout exactly when each of its steps meets the guard. -/
theorem always_iff_eachStep {I P : S → Prop} {G : S → A → Prop}
    (inv : ∀ s a t, I s → step s a = some t → I t)
    (exact_step : ∀ s a t, I s → P s → step s a = some t → (P t ↔ G s a))
    {s : S} (hi : I s) (hp : P s) (as : List A) :
    Always step P s as ↔ EachStep step G s as := by
  induction as generalizing s with
  | nil => exact ⟨fun _ => trivial, fun _ => hp⟩
  | cons a as ih =>
      constructor
      · rintro ⟨_, rest⟩ t first
        have kept := (rest t first).head
        exact ⟨(exact_step s a t hi hp first).mp kept,
          (ih (inv s a t hi first) kept).mp (rest t first)⟩
      · intro each
        refine ⟨hp, ?_⟩
        intro t first
        obtain ⟨guard, rest⟩ := each t first
        have kept := (exact_step s a t hi hp first).mpr guard
        exact (ih (inv s a t hi first) kept).mpr rest

/-- Two guards that agree in every state with an invariant the first one keeps. -/
theorem eachStep_iff {I : S → Prop} {G H : S → A → Prop}
    (keep : ∀ s a t, I s → G s a → step s a = some t → I t)
    (agree : ∀ s a t, I s → step s a = some t → (G s a ↔ H s a)) {s : S} (hi : I s)
    (as : List A) : EachStep step G s as ↔ EachStep step H s as := by
  induction as generalizing s with
  | nil => exact Iff.rfl
  | cons a as ih =>
      refine forall_congr' fun t => forall_congr' fun first => ?_
      rw [← agree s a t hi first]
      exact and_congr_right fun guard => ih (keep s a t hi guard first)

end Runs

section Decide
variable {step : S → A → Option S}

instance decidableAlways {P : S → Prop} [DecidablePred P] :
    ∀ s as, Decidable (Always step P s as)
  | s, [] => inferInstanceAs (Decidable (P s))
  | s, a :: as =>
      have := fun t => decidableAlways (P := P) t as
      inferInstanceAs (Decidable (P s ∧ ∀ t ∈ step s a, Always step P t as))

instance decidableEachStep {G : S → A → Prop} [∀ s a, Decidable (G s a)] :
    ∀ s as, Decidable (EachStep step G s as)
  | _, [] => .isTrue trivial
  | s, a :: as =>
      have := fun t => decidableEachStep (G := G) t as
      inferInstanceAs (Decidable (∀ t ∈ step s a, G s a ∧ EachStep step G t as))

end Decide

section Projection
variable {step : S → A → Option S} {step' : T → B → Option T}

/-- A stuttering projection: each step of the large system is a step of the small
one or leaves it alone. Reachability is then inherited. -/
theorem Reach.project {f : S → T}
    (simulate : ∀ s a t, step s a = some t → f t = f s ∨ ∃ b, step' (f s) b = some (f t))
    {s t : S} (reach : Reach step s t) : Reach step' (f s) (f t) := by
  obtain ⟨as, h⟩ := reach
  induction as generalizing s with
  | nil => exact Option.some.inj h ▸ .refl _
  | cons a as ih =>
      obtain ⟨u, first, rest⟩ := Option.bind_eq_some_iff.mp h
      rcases simulate s a u first with same | ⟨b, moved⟩
      · exact same ▸ ih rest
      · exact Reach.trans ⟨[b], by simp [moved]⟩ (ih rest)

end Projection

section Lockstep
variable {step : S → A → Option S} {step' : T → A → Option T} {R : S → T → Prop}
  {dead : S → Prop} {bad : T → Prop} {s s' : S} {t t' : T} {as : List A}

/-- Two systems that take the same steps, until one makes the second system bad for good and is
the last one of the first. -/
structure Lockstep (step : S → A → Option S) (step' : T → A → Option T) (R : S → T → Prop)
    (dead : S → Prop) (bad : T → Prop) : Prop where
  stuck : ∀ s a, dead s → step s a = none
  stays : ∀ t a t', bad t → step' t a = some t' → bad t'
  both : ∀ s t a, R s t → step s a = none ∧ step' t a = none ∨
    ∃ s' t', step s a = some s' ∧ step' t a = some t' ∧ (R s' t' ∨ dead s' ∧ bad t')

theorem Lockstep.forward (lock : Lockstep step step' R dead bad) (related : R s t)
    (h : run step s as = some s') :
    ∃ t', run step' t as = some t' ∧ (R s' t' ∨ dead s' ∧ bad t') := by
  induction as generalizing s t with
  | nil => exact Option.some.inj h ▸ ⟨t, rfl, .inl related⟩
  | cons a as ih =>
      obtain ⟨u, first, rest⟩ := Option.bind_eq_some_iff.mp h
      rcases lock.both s t a related with ⟨none, -⟩ | ⟨u', v, moved, moved', after⟩
      · cases none.symm.trans first
      · obtain rfl := Option.some.inj (moved.symm.trans first)
        rw [run_cons, moved']
        rcases after with related | ⟨dead, bad⟩
        · exact ih related rest
        · cases as with
          | nil => exact Option.some.inj rest ▸ ⟨v, rfl, .inr ⟨dead, bad⟩⟩
          | cons b bs =>
              rw [run_cons, lock.stuck u' b dead] at rest
              cases rest

end Lockstep

section Calls
variable {call : S → A → B × S} {call' : T → A → B × T}

/-- Calls made one after the other: what each of them returns, and the state after the last. -/
def calls (call : S → A → B × S) : S → List A → List B × S
  | s, [] => ([], s)
  | s, a :: as =>
      let r := call s a
      let rs := calls call r.2 as
      (r.1 :: rs.1, rs.2)

theorem run_calls (s : S) (as : List A) :
    run (fun s a => some (call s a).2) s as = some (calls call s as).2 := by
  induction as generalizing s with
  | nil => rfl
  | cons a as ih => exact ih (call s a).2

/-- The rule for two systems that nobody can tell apart: states that are related return the same
to each call, and are related after it. -/
theorem calls_unwind {R : S → T → Prop}
    (unwind : ∀ s t a, R s t → (call s a).1 = (call' t a).1 ∧ R (call s a).2 (call' t a).2)
    {s : S} {t : T} (related : R s t) (as : List A) :
    (calls call s as).1 = (calls call' t as).1 ∧ R (calls call s as).2 (calls call' t as).2 := by
  induction as generalizing s t with
  | nil => exact ⟨rfl, related⟩
  | cons a as ih =>
      obtain ⟨same, next⟩ := unwind s t a related
      obtain ⟨later, last⟩ := ih next
      exact ⟨congrArg₂ List.cons same later, last⟩

end Calls

section Recorded
variable {step : S → A → Option S} {emit : S → A → S → List B}

/-- A system beside a record of what its steps emit, the newest first. -/
def recorded (step : S → A → Option S) (emit : S → A → S → List B) (s : S × List B) (a : A) :
    Option (S × List B) :=
  (step s.1 a).map fun t => (t, emit s.1 a t ++ s.2)

theorem recorded_some {s : S} {a : A} {past : List B} {r : S × List B}
    (h : recorded step emit (s, past) a = some r) :
    ∃ t, step s a = some t ∧ r = (t, emit s a t ++ past) := by
  obtain ⟨t, moved, same⟩ := Option.map_eq_some_iff.mp h
  exact ⟨t, moved, same.symm⟩

/-- The record takes no part in the runs. -/
theorem run_recorded (emit : S → A → S → List B) (s : S) (past : List B) (as : List A) :
    (run (recorded step emit) (s, past) as).map Prod.fst = run step s as := by
  induction as generalizing s past with
  | nil => rfl
  | cons a as ih =>
      rw [run_cons, run_cons, recorded]
      cases moved : step s a with
      | none => rfl
      | some t => exact ih t _

/-- The invariant rule for a run of own labels, beside its record. -/
theorem run_beside_own {emit : S → A → S → List B} {own : A → Prop} {P : S → List B → Prop}
    (keep : ∀ s a t past, P s past → own a → step s a = some t → P t (emit s a t ++ past))
    {s t : S} {past record : List B} {as : List A}
    (h : run (recorded step emit) (s, past) as = some (t, record)) (all : ∀ a ∈ as, own a)
    (hs : P s past) : P t record := by
  induction as generalizing s past with
  | nil =>
      obtain ⟨rfl, rfl⟩ := Prod.mk.inj (Option.some.inj h)
      exact hs
  | cons a as ih =>
      obtain ⟨r, first, rest⟩ := Option.bind_eq_some_iff.mp h
      obtain ⟨u, moved, rfl⟩ := recorded_some first
      exact ih rest (fun b member => all b (List.mem_cons_of_mem a member))
        (keep s a u past hs (all a List.mem_cons_self) moved)

theorem run_beside_record {emit : S → A → S → List B} {P : S → List B → Prop}
    (keep : ∀ s a t past, P s past → step s a = some t → P t (emit s a t ++ past))
    {s t : S} {past record : List B} {as : List A}
    (h : run (recorded step emit) (s, past) as = some (t, record)) (hs : P s past) : P t record :=
  run_beside_own (fun s a t past holds (_ : True) => keep s a t past holds) h
    (fun _ _ => trivial) hs

/-- The invariant rule for a run beside its record. -/
theorem run_beside {emit : S → A → S → List B} {P : S → List B → Prop}
    (keep : ∀ s a t past, P s past → step s a = some t → P t (emit s a t ++ past))
    {s t : S} {past : List B} {as : List A} (h : run step s as = some t) (hs : P s past) :
    ∃ record, run (recorded step emit) (s, past) as = some (t, record) ∧ P t record := by
  have beside := (run_recorded emit s past as).trans h
  obtain ⟨⟨_, record⟩, runs, rfl⟩ := Option.map_eq_some_iff.mp beside
  exact ⟨record, runs, run_beside_record keep runs hs⟩

end Recorded
end Transition
