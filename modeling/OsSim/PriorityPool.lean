import Mathlib.Data.List.Basic
import Mathlib.Order.Comparable

/-! A pool of waiting elements, kept in order of arrival, that serves a best one and
among equally good ones the one that waits longest. `Better x y` is any relation;
the pool never compares in another way. -/
namespace PriorityPool

variable {α : Type*}

inductive Request (α : Type*) where
  | submit (x : α)
  | serve

/-- One request, its answer and the pool after it. A served element is better than
every older one and worse than no newer one; all others stay in place. -/
inductive Step (Better : α → α → Prop) : List α → Request α → Option α → List α → Prop
  | submit (pool x) : Step Better pool (.submit x) none (pool ++ [x])
  | idle : Step Better [] .serve none []
  | serve {older x newer} : (∀ y ∈ older, Better x y) → (∀ y ∈ newer, ¬ Better y x) →
      Step Better (older ++ x :: newer) .serve (some x) (older ++ newer)

inductive Run (Better : α → α → Prop) : List α → List (Request α × Option α) → List α → Prop
  | nil (pool) : Run Better pool [] pool
  | cons {pool pool' pool'' request answer rest} : Step Better pool request answer pool' →
      Run Better pool' rest pool'' → Run Better pool ((request, answer) :: rest) pool''

/-- An element found in a filtered pool is found in the pool, between elements that
filter to what surrounds it. -/
theorem split_of_filter {f : α → Bool} {pool older newer : List α} {x : α}
    (h : pool.filter f = older ++ x :: newer) :
    ∃ before after, pool = before ++ x :: after ∧ f x = true ∧
      before.filter f = older ∧ after.filter f = newer := by
  obtain ⟨left, right, rfl, first, second⟩ := List.filter_eq_append_iff.mp h
  obtain ⟨skipped, after, rfl, none, found, rest⟩ := List.filter_eq_cons_iff.mp second
  refine ⟨left ++ skipped, after, by simp, found, ?_, rest⟩
  rw [List.filter_append, first, List.filter_eq_nil_iff.mpr none, List.append_nil]

section Turns
variable {Better : α → α → Prop} {pool' ahead behind : List α} {request : Request α}
  {answer : Option α} {events : List (Request α × Option α)} {x : α}

/-- The elements served, in the order of the requests. -/
def served (events : List (Request α × Option α)) : List α := events.filterMap Prod.snd

theorem served_cons (request : Request α) (answer : Option α)
    (events : List (Request α × Option α)) :
    served ((request, answer) :: events) = answer.toList ++ served events := by
  cases answer <;> rfl

theorem served_append (events later : List (Request α × Option α)) :
    served (events ++ later) = served events ++ served later :=
  List.filterMap_append

theorem Run.append {pool middle pool' : List α} {events later : List (Request α × Option α)}
    (first : Run Better pool events middle) (second : Run Better middle later pool') :
    Run Better pool (events ++ later) pool' := by
  induction first with
  | nil => exact second
  | cons step _ ih => exact .cons step (ih second)

variable [IsStrictWeakOrder α Better]

/-- What is better than one of two tied elements is better than the other one. -/
theorem better_of_tied {y z : α} (tied : IncompRel Better x y) (better : Better y z) :
    ¬ IncompRel Better x z := fun tied' =>
  (IsStrictWeakOrder.incomp_trans y x z tied.symm tied').1 better

variable [DecidableRel Better]

/-- A step in which an element goes on waiting: none is served that it is better than, and of those
it is tied with the one served, if any, was the first of those ahead of it. -/
theorem Step.in_turn (step : Step Better (ahead ++ x :: behind) request answer pool')
    (waits : answer ≠ some x) :
    ∃ ahead' behind', pool' = ahead' ++ x :: behind' ∧ (∀ y ∈ answer, ¬ Better x y) ∧
      answer.toList.filter (IncompRel Better x ·) ++ ahead'.filter (IncompRel Better x ·) =
        ahead.filter (IncompRel Better x ·) := by
  generalize split : ahead ++ x :: behind = pool at step
  cases step with
  | submit _ z => exact ⟨ahead, behind ++ [z], by simp [← split], nofun, rfl⟩
  | idle => simp at split
  | @serve older y newer best oldest =>
      rcases List.append_eq_append_iff.mp split with ⟨mid, rfl, eq⟩ | ⟨mid, rfl, eq⟩
      · -- the one served has come after the element, which waits because it is not as good
        cases mid with
        | nil => exact absurd (congrArg some (List.cons.inj eq).1.symm) waits
        | cons z mid =>
            obtain ⟨rfl, rfl⟩ := List.cons.inj eq
            have better : Better y x := best x (by simp)
            refine ⟨ahead, mid ++ newer, by simp, ?_, ?_⟩
            · rintro _ ⟨⟩
              exact asymm better
            · simp [IncompRel, better]
      · cases mid with
        | nil => exact absurd (congrArg some (List.cons.inj eq).1) waits
        | cons z mid =>
            obtain ⟨rfl, rfl⟩ := List.cons.inj eq
            refine ⟨older ++ mid, behind, by simp, ?_, ?_⟩
            · rintro _ ⟨⟩
              exact oldest x (by simp)
            · rw [List.filter_append, List.filter_append]
              by_cases tied : IncompRel Better x y
              · -- no tied one is older, since the one served is better than those
                have first : older.filter (IncompRel Better x ·) = [] := by
                  refine List.filter_eq_nil_iff.mpr fun z member => ?_
                  simpa using better_of_tied tied (best z member)
                simp [first, tied]
              · simp [tied]

/-- The run lemma: as long as an element waits, the tied ones served are the first ones of those
that were ahead of it, each in its turn, and none is served that it is better than. -/
theorem Run.in_turn (run : Run Better (ahead ++ x :: behind) events pool')
    (waits : x ∉ served events) :
    ∃ ahead' behind', pool' = ahead' ++ x :: behind' ∧ (∀ y ∈ served events, ¬ Better x y) ∧
      (served events).filter (IncompRel Better x ·) ++ ahead'.filter (IncompRel Better x ·) =
        ahead.filter (IncompRel Better x ·) := by
  generalize split : ahead ++ x :: behind = pool at run
  induction run generalizing ahead behind with
  | nil => exact ⟨ahead, behind, split.symm, nofun, rfl⟩
  | @cons pool middle pool' request answer events step run ih =>
      subst split
      rw [served_cons] at waits ⊢
      obtain ⟨not_now, not_later⟩ := not_or.mp (mt List.mem_append.mpr waits)
      obtain ⟨ahead₁, behind₁, rfl, none_worse, first⟩ :=
        step.in_turn fun same => not_now (by simp [same])
      obtain ⟨ahead₂, behind₂, rfl, none_worse', rest⟩ := ih not_later rfl
      refine ⟨ahead₂, behind₂, rfl, ?_, ?_⟩
      · intro y member
        rcases List.mem_append.mp member with now | later
        · exact none_worse y (Option.mem_toList.mp now)
        · exact none_worse' y later
      · rw [List.filter_append, List.append_assoc, rest, first]

end Turns

end PriorityPool
