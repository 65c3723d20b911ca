import Mathlib.Algebra.Order.BigOperators.Group.List
import Mathlib.Data.List.Pairwise
import Mathlib.Data.Set.Disjoint
import Mathlib.Data.Set.Lattice
import Mathlib.Order.CompletePartialOrder
import Mathlib.Order.Interval.Set.Basic

/-! Lists of things that each occupy a set of points. The things are pairwise disjoint when
no point is covered twice, and what is to be shown of a list that is split, moved about or
cut short is then a matter of counting. -/
namespace Cover

variable {A B : Type*} (f : A → Set B)

open Classical in
/-- How many things of the list cover the point. -/
noncomputable def cover (l : List A) (b : B) : Nat := l.countP fun x => b ∈ f x

@[simp] theorem cover_nil (b : B) : cover f [] b = 0 := rfl

open Classical in
theorem cover_cons (x : A) (l : List A) (b : B) :
    cover f (x :: l) b = cover f l b + if b ∈ f x then 1 else 0 := by
  simp [cover, List.countP_cons]

@[simp] theorem cover_append (l m : List A) (b : B) :
    cover f (l ++ m) b = cover f l b + cover f m b := by
  simp [cover]

theorem cover_pos {l : List A} {b : B} : 0 < cover f l b ↔ ∃ x ∈ l, b ∈ f x := by
  simp [cover, List.countP_pos_iff]

theorem cover_cons_append (x : A) (l : List A) (b : B) :
    cover f (x :: l) b = cover f [x] b + cover f l b :=
  cover_append f [x] l b

theorem cover_mono {g : A → Set B} {x y : A} (within : f x ⊆ g y) (b : B) :
    cover f [x] b ≤ cover g [y] b := by
  rw [cover_cons, cover_cons, cover_nil, cover_nil]
  by_cases inside : b ∈ f x
  · rw [if_pos inside, if_pos (within inside)]
  · rw [if_neg inside]
    exact Nat.zero_le _

theorem cover_empty {x : A} (empty : f x = ∅) (b : B) : cover f [x] b = 0 := by
  simp [cover, empty]

/-- A thing that is cut in two covers what its parts do. -/
theorem cover_split {x y z : A} (apart : Disjoint (f y) (f z)) (union : f y ∪ f z ⊆ f x) (b : B) :
    cover f [y] b + cover f [z] b ≤ cover f [x] b := by
  have parts : b ∈ f y → b ∉ f z := fun hy hz => Set.disjoint_left.mp apart hy hz
  have whole : b ∈ f y ∨ b ∈ f z → b ∈ f x := fun h => union h
  simp only [cover_cons, cover_nil, Nat.zero_add]
  by_cases hy : b ∈ f y
  · simp [hy, parts hy, whole (.inl hy)]
  · by_cases hz : b ∈ f z
    · simp [hy, hz, whole (.inr hz)]
    · simp [hy, hz]

/-- Nothing is lost where the parts make up the whole. -/
theorem cover_split_eq {x y z : A} (apart : Disjoint (f y) (f z)) (union : f y ∪ f z = f x)
    (b : B) : cover f [y] b + cover f [z] b = cover f [x] b := by
  have parts : b ∈ f y → b ∉ f z := fun hy hz => Set.disjoint_left.mp apart hy hz
  have whole : b ∈ f x ↔ b ∈ f y ∨ b ∈ f z := by rw [← union, Set.mem_union]
  simp only [cover_cons, cover_nil, Nat.zero_add]
  by_cases hy : b ∈ f y
  · rw [if_pos hy, if_neg (parts hy), if_pos (whole.mpr (.inl hy))]
  · by_cases hz : b ∈ f z
    · rw [if_neg hy, if_pos hz, if_pos (whole.mpr (.inr hz))]
    · rw [if_neg hy, if_neg hz, if_neg fun h => (whole.mp h).elim hy hz]

theorem cover_zero {l : List A} {b : B} : cover f l b = 0 ↔ ∀ x ∈ l, b ∉ f x := by
  rw [← Nat.le_zero, ← not_lt, cover_pos]
  simp

theorem pairwise_disjoint_iff (l : List A) :
    l.Pairwise (fun x y => Disjoint (f x) (f y)) ↔ ∀ b, cover f l b ≤ 1 := by
  induction l with
  | nil => simp
  | cons x l ih =>
      rw [List.pairwise_cons, ih]
      constructor
      · rintro ⟨apart, rest⟩ b
        rw [cover_cons]
        split
        · rename_i here
          have none_else : cover f l b = 0 := by
            by_contra covered
            obtain ⟨y, member, there⟩ := (cover_pos f).mp (Nat.pos_of_ne_zero covered)
            exact Set.disjoint_left.mp (apart y member) here there
          rw [none_else]
        · exact rest b
      · intro once
        constructor
        · intro y member
          apply Set.disjoint_left.mpr
          intro b here there
          have covered := (cover_pos f).mpr ⟨y, member, there⟩
          have := once b
          rw [cover_cons, if_pos here] at this
          omega
        · intro b
          have := once b
          rw [cover_cons] at this
          omega

/-- One thing of a list is replaced by another. -/
theorem cover_set {l : List A} {i : Nat} (inside : i < l.length) (x : A) (b : B) :
    cover f (l.set i x) b + cover f [l[i]] b = cover f l b + cover f [x] b := by
  induction l generalizing i with
  | nil => exact absurd inside (Nat.not_lt_zero i)
  | cons y l ih =>
      cases i with
      | zero =>
          rw [List.set_cons_zero, List.getElem_cons_zero, cover_cons_append _ x l,
            cover_cons_append _ y l]
          omega
      | succ i =>
          have rest := ih (Nat.lt_of_succ_lt_succ inside)
          rw [List.set_cons_succ, List.getElem_cons_succ, cover_cons_append _ y (l.set i x),
            cover_cons_append _ y l]
          omega

open Classical in
/-- What a filter drops covers nothing. -/
theorem cover_filter (p : A → Bool) (l : List A) (b : B) :
    cover f (l.filter p) b = cover (fun x => if p x then f x else ∅) l b := by
  unfold cover
  rw [List.countP_filter]
  apply List.countP_congr
  intro x _
  by_cases kept : p x = true <;> simp [kept]

/-- One of several lists is replaced by another. -/
theorem cover_flatMap_modify {C : Type*} (g : C → List A) (h : C → C) {l : List C} {n : Nat} {c : C}
    (here : l[n]? = some c) (b : B) :
    cover f ((l.modify n h).flatMap g) b + cover f (g c) b =
      cover f (l.flatMap g) b + cover f (g (h c)) b := by
  induction l generalizing n with
  | nil => cases here
  | cons d l ih =>
      cases n with
      | zero =>
          obtain rfl : d = c := Option.some.inj here
          simp only [List.modify_zero_cons, List.flatMap_cons, cover_append]
          omega
      | succ n =>
          have rest := ih here
          simp only [List.modify_succ_cons, List.flatMap_cons, cover_append]
          omega

end Cover
