import Mathlib.Logic.Function.Basic

/-! Threads that take locks and give them back. `has` says which locks a thread has at a place
of its program, and the locks record their holders. Nothing here depends on what the places are. -/
namespace Locks

variable {T L P : Type*} {holder : L → Option T} {has waits : P → L → Prop} {loc : T → P}

/-- The locks record the threads that have them. -/
def Recorded (holder : L → Option T) (has : P → L → Prop) (loc : T → P) : Prop :=
  ∀ t l, holder l = some t ↔ has (loc t) l

theorem Recorded.exclusive (record : Recorded holder has loc) {t u : T} {l : L}
    (here : has (loc t) l) (there : has (loc u) l) : t = u :=
  Option.some.inj (((record t l).mpr here).symm.trans ((record u l).mpr there))

/-- Locks are taken in the order of a rank. Then a thread that waits in vain waits, through others
perhaps, for one that can go on. -/
theorem Recorded.not_all_blocked (record : Recorded holder has loc) {rank : L → Nat} {top : Nat}
    (ordered : ∀ p l k, waits p l → has p k → rank k < rank l) (bounded : ∀ l, rank l ≤ top)
    {t : T} {l : L} (waiting : waits (loc t) l) (blocked : holder l ≠ none) :
    ∃ u k, has (loc u) k ∧ ∀ l, waits (loc u) l → holder l = none := by
  induction left : top - rank l using Nat.strongRecOn generalizing t l with
  | ind left ih =>
      obtain ⟨u, held⟩ := Option.ne_none_iff_exists'.mp blocked
      have here := (record u l).mp held
      by_cases free : ∀ k, waits (loc u) k → holder k = none
      · exact ⟨u, l, here, free⟩
      · obtain ⟨k, refused⟩ := not_forall.mp free
        obtain ⟨waiting', blocked'⟩ := Classical.not_imp.mp refused
        have higher := ordered (loc u) k l waiting' here
        have below := bounded k
        exact ih (top - rank k) (by omega) waiting' blocked' rfl

section Update
variable [DecidableEq T] {t : T} {l : L} {new : P}

theorem Recorded.move (record : Recorded holder has loc)
    (same : ∀ k, has new k ↔ has (loc t) k) : Recorded holder has (Function.update loc t new) := by
  intro u k
  rw [record u k, Function.update_apply]
  split
  · rename_i own
    rw [own, same]
  · rfl

variable [DecidableEq L]

theorem Recorded.acquire (record : Recorded holder has loc) (free : holder l = none)
    (takes : ∀ k, has new k ↔ k = l ∨ has (loc t) k) :
    Recorded (Function.update holder l (some t)) has (Function.update loc t new) := by
  intro u k
  have before := record u k
  by_cases lock : k = l
  · subst lock
    rw [Function.update_self, Option.some.injEq]
    rw [free] at before
    by_cases own : u = t
    · subst own
      rw [Function.update_self, takes]
      exact iff_of_true rfl (.inl rfl)
    · rw [Function.update_of_ne own]
      exact iff_of_false (Ne.symm own) fun there => by cases before.mpr there
  · rw [Function.update_of_ne lock, before]
    by_cases own : u = t
    · subst own
      rw [Function.update_self, takes, or_iff_right lock]
    · rw [Function.update_of_ne own]

theorem Recorded.release (record : Recorded holder has loc) (had : has (loc t) l)
    (gives : ∀ k, has new k ↔ k ≠ l ∧ has (loc t) k) :
    Recorded (Function.update holder l none) has (Function.update loc t new) := by
  intro u k
  have before := record u k
  by_cases lock : k = l
  · subst lock
    rw [Function.update_self]
    by_cases own : u = t
    · subst own
      rw [Function.update_self, gives]
      exact iff_of_false (fun none => by cases none) fun gone => gone.1 rfl
    · rw [Function.update_of_ne own]
      exact iff_of_false (fun none => by cases none) fun there => own (record.exclusive there had)
  · rw [Function.update_of_ne lock, before]
    by_cases own : u = t
    · subst own
      rw [Function.update_self, gives, and_iff_right lock]
    · rw [Function.update_of_ne own]

end Update
end Locks
