import Mathlib.Data.List.Basic
import Mathlib.Logic.Function.Basic
import Mathlib.Order.Lattice
import Mathlib.Tactic.SplitIfs

/-! Arrays of slots whose first cells are read as a list: the loop that selects
the first largest cell and the loop that closes the gap its removal leaves. -/
namespace Slots

/-- The first `n` slots in index order. -/
def listing {α : Type*} (a : Nat → α) (n : Nat) : List α := (List.range n).map a

/-- Selection loop: the candidate moves only to a strictly larger later slot. -/
def firstMax {κ : Type*} [LT κ] [DecidableLT κ] (key : Nat → κ) : Nat → Nat
  | 0 => 0
  | n + 1 => if key (firstMax key n) < key n then n else firstMax key n

/-- Shift loop: from `i` on, `m` times, each slot moves to the one before it. -/
def shiftDown {α : Type*} (a : Nat → α) (i : Nat) : Nat → Nat → α
  | 0 => a
  | m + 1 => shiftDown (Function.update a (i - 1) (a i)) (i + 1) m

section Listing
variable {α : Type*} {a b : Nat → α} {n k : Nat}

@[simp] theorem listing_length : (listing a n).length = n := by simp [listing]

@[simp] theorem listing_zero : listing a 0 = [] := rfl

theorem listing_succ : listing a (n + 1) = listing a n ++ [a n] := by
  simp [listing, List.range_succ]

theorem mem_listing {x : α} : x ∈ listing a n ↔ ∃ i < n, a i = x := by
  simp [listing]

theorem listing_congr (same : ∀ i < n, a i = b i) : listing a n = listing b n := by
  apply List.map_congr_left
  intro i member
  exact same i (List.mem_range.mp member)

theorem listing_add (n m : Nat) :
    listing a (n + m) = listing a n ++ listing (fun j => a (n + j)) m := by
  induction m with
  | zero => simp
  | succ m ih => rw [← Nat.add_assoc, listing_succ, ih, listing_succ, List.append_assoc]

theorem listing_split (h : k < n) :
    listing a n = listing a k ++ a k :: listing (fun j => a (k + 1 + j)) (n - (k + 1)) := by
  have parts : n = k + 1 + (n - (k + 1)) := by omega
  conv_lhs => rw [parts, listing_add, listing_succ]
  simp only [List.append_assoc, List.singleton_append]

theorem listing_eraseIdx (h : k < n) : (listing a n).eraseIdx k =
    listing a k ++ listing (fun j => a (k + 1 + j)) (n - (k + 1)) := by
  rw [listing_split h, List.eraseIdx_append_of_length_le listing_length.le, listing_length,
    Nat.sub_self, List.eraseIdx_cons_zero]

theorem listing_inj : listing a n = listing b n ↔ ∀ i < n, a i = b i := by
  simp [listing]

end Listing

section Selection
variable {κ : Type*} [LinearOrder κ] (key : Nat → κ) {n : Nat}

theorem firstMax_lt (h : 0 < n) : firstMax key n < n := by
  induction n with
  | zero => omega
  | succ n ih =>
      simp only [firstMax]
      split_ifs
      · omega
      · rcases Nat.eq_zero_or_pos n with rfl | pos
        · exact Nat.zero_lt_one
        · exact Nat.lt_succ_of_lt (ih pos)

theorem firstMax_max {i : Nat} (h : i < n) : key i ≤ key (firstMax key n) := by
  induction n with
  | zero => omega
  | succ n ih =>
      simp only [firstMax]
      rcases Nat.lt_succ_iff_lt_or_eq.mp h with before | rfl
      · split_ifs with larger
        · exact (ih before).trans larger.le
        · exact ih before
      · split_ifs with larger
        · exact le_rfl
        · exact not_lt.mp larger

theorem firstMax_first {i : Nat} (h : i < firstMax key n) : key i < key (firstMax key n) := by
  induction n with
  | zero => simp [firstMax] at h
  | succ n ih =>
      simp only [firstMax] at h ⊢
      split_ifs at h ⊢ with larger
      · exact (firstMax_max key h).trans_lt larger
      · exact ih h

/-- The loop looks at no slot from `n` on. -/
theorem firstMax_congr {key' : Nat → κ} (same : ∀ i < n, key i = key' i) :
    firstMax key n = firstMax key' n := by
  induction n with
  | zero => rfl
  | succ n ih =>
      have before := ih fun i h => same i (Nat.lt_succ_of_lt h)
      have last : key (firstMax key n) = key' (firstMax key n) := by
        rcases Nat.eq_zero_or_pos n with rfl | pos
        · exact same 0 Nat.zero_lt_one
        · exact same _ (Nat.lt_succ_of_lt (firstMax_lt key pos))
      simp only [firstMax]
      rw [last, same n (Nat.lt_succ_self n), before]

end Selection

section Shift
variable {α : Type*} {n k : Nat}

/-- The shift loop in closed form: only the slots it writes change. -/
theorem shiftDown_apply (a : Nat → α) (k m j : Nat) :
    shiftDown a (k + 1) m j = if k ≤ j ∧ j < k + m then a (j + 1) else a j := by
  induction m generalizing a k with
  | zero =>
      have outside : ¬ (k ≤ j ∧ j < k + 0) := by omega
      rw [if_neg outside]
      rfl
  | succ m ih =>
      simp only [shiftDown, Nat.add_sub_cancel, ih]
      by_cases later : k + 1 ≤ j ∧ j < k + 1 + m
      · rw [if_pos later, if_pos (by omega), Function.update_of_ne (by omega)]
      · rw [if_neg later]
        by_cases first : j = k
        · subst first
          rw [Function.update_self, if_pos (by omega)]
        · rw [Function.update_of_ne first, if_neg (by omega)]

theorem listing_shiftDown (a : Nat → α) (h : k < n) :
    listing (shiftDown a (k + 1) (n - (k + 1))) (n - 1) =
      listing a k ++ listing (fun j => a (k + 1 + j)) (n - (k + 1)) := by
  have parts : n - 1 = k + (n - (k + 1)) := by omega
  rw [parts, listing_add]
  congr 1
  · apply listing_congr
    intro i before
    rw [shiftDown_apply, if_neg (by omega)]
  · apply listing_congr
    intro i within
    rw [shiftDown_apply, if_pos (by omega)]
    congr 1
    omega

end Shift
end Slots
