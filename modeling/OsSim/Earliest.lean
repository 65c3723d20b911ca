import Mathlib.Order.Monotone.Basic

/-! Things that are done one at a time and in order, none before it is due: the earliest times
there are for them. -/
namespace Earliest

/-- When each is done, if it is done as soon as it is due and the one before it is done. -/
def slot (due : Nat → Nat) : Nat → Nat
  | 0 => max (due 0) 0
  | i + 1 => max (due (i + 1)) (slot due i + 1)

/-- The first time that is free when so many of them are done. -/
def free (due : Nat → Nat) : Nat → Nat
  | 0 => 0
  | i + 1 => slot due i + 1

variable {due : Nat → Nat} {i j now : Nat}

theorem slot_eq (due : Nat → Nat) (i : Nat) : slot due i = max (due i) (free due i) := by
  cases i with
  | zero => rfl
  | succ i => rfl

theorem due_le_slot : due i ≤ slot due i := slot_eq due i ▸ le_max_left _ _

theorem free_le_slot : free due i ≤ slot due i := slot_eq due i ▸ le_max_right _ _

theorem slot_strictMono : StrictMono (slot due) :=
  strictMono_nat_of_lt_succ fun _ => Nat.lt_of_succ_le (le_max_right _ _)

/-- No other times that are in order and not too early are earlier, by induction on them. -/
theorem slot_least {times : Nat → Nat} (ordered : StrictMono times)
    (punctual : ∀ i, due i ≤ times i) (i : Nat) : slot due i ≤ times i := by
  induction i with
  | zero => exact max_le (punctual 0) (Nat.zero_le _)
  | succ i ih =>
      have later : times i < times (i + 1) := ordered (Nat.lt_succ_self i)
      exact max_le (punctual (i + 1)) (Nat.succ_le_of_lt (ih.trans_lt later))

/-- At a time that is due and free, no time has been lost. -/
theorem slot_of_due (free_now : free due i ≤ now) (no_later : now ≤ slot due i)
    (due_now : due i ≤ now) : now = slot due i :=
  le_antisymm no_later (slot_eq due i ▸ max_le due_now free_now)

theorem slot_lt_free : slot due i < free due j ↔ i < j := by
  cases j with
  | zero => exact iff_of_false (Nat.not_lt_zero _) (Nat.not_lt_zero _)
  | succ j =>
      rw [free, Nat.lt_succ_iff, Nat.lt_succ_iff]
      exact slot_strictMono.le_iff_le

end Earliest
