import Mathlib.Algebra.BigOperators.Group.Finset.Piecewise
import Mathlib.Data.Fintype.Prod
import Mathlib.Order.Interval.Finset.Nat

/-! Charts of turns: what took place in which slot, the newest turn first. Each turn has a key,
the unit or the job that it belongs to, and a key has one turn in a slot at most. -/
namespace Chart

variable {τ κ : Type*} {slot : τ → Nat} {key : τ → κ} {past : List τ} {lo hi : Nat}

/-- The turns of a key come one after another, in later and later slots. -/
def Ordered (slot : τ → Nat) (key : τ → κ) (past : List τ) : Prop :=
  past.Pairwise fun t u => key t = key u → slot u < slot t

theorem Ordered.nil : Ordered slot key [] := List.Pairwise.nil

theorem Ordered.cons {t : τ} (ordered : Ordered slot key past)
    (later : ∀ u ∈ past, key u = key t → slot u < slot t) : Ordered slot key (t :: past) :=
  List.pairwise_cons.mpr ⟨fun u member same => later u member same.symm, ordered⟩

theorem Ordered.nodup (ordered : Ordered slot key past) :
    (past.map fun t => (slot t, key t)).Nodup := by
  rw [List.Nodup, List.pairwise_map]
  apply ordered.imp
  intro t u later same
  obtain ⟨slots, keys⟩ := Prod.mk.inj same
  exact absurd slots (later keys).ne'

/-- A key has no more turns than there are slots for it. -/
theorem Ordered.count_le [DecidableEq κ] (ordered : Ordered slot key past) {k : κ}
    (within : ∀ t ∈ past, key t = k → lo ≤ slot t ∧ slot t < hi) :
    past.countP (fun t => key t = k) ≤ hi - lo := by
  have once : ((past.filter fun t => key t = k).map slot).Nodup := by
    rw [List.Nodup, List.pairwise_map, List.pairwise_filter]
    apply ordered.imp
    intro t u later here there
    exact (later ((of_decide_eq_true here).trans (of_decide_eq_true there).symm)).ne'
  have inside : ((past.filter fun t => key t = k).map slot).toFinset ⊆ Finset.Ico lo hi := by
    intro s member
    obtain ⟨t, turn, rfl⟩ := List.mem_map.mp (List.mem_toFinset.mp member)
    obtain ⟨turn, own⟩ := List.mem_filter.mp turn
    exact Finset.mem_Ico.mpr (within t turn (of_decide_eq_true own))
  calc past.countP (fun t => key t = k)
      = ((past.filter fun t => key t = k).map slot).toFinset.card := by
        rw [List.toFinset_card_of_nodup once, List.length_map, List.countP_eq_length_filter]
    _ ≤ hi - lo := Nat.card_Ico lo hi ▸ Finset.card_le_card inside

/-- All the keys together have no more turns than there are slots for each of them. -/
theorem Ordered.length_le [DecidableEq κ] [Fintype κ] (ordered : Ordered slot key past)
    (within : ∀ t ∈ past, slot t < hi) : past.length ≤ Fintype.card κ * hi := by
  have inside : (past.map fun t => (slot t, key t)).toFinset ⊆
      Finset.range hi ×ˢ (Finset.univ : Finset κ) := by
    intro s member
    obtain ⟨t, turn, rfl⟩ := List.mem_map.mp (List.mem_toFinset.mp member)
    exact Finset.mem_product.mpr ⟨Finset.mem_range.mpr (within t turn), Finset.mem_univ _⟩
  calc past.length = (past.map fun t => (slot t, key t)).toFinset.card := by
        rw [List.toFinset_card_of_nodup ordered.nodup, List.length_map]
    _ ≤ (Finset.range hi ×ˢ (Finset.univ : Finset κ)).card := Finset.card_le_card inside
    _ = Fintype.card κ * hi := by
        rw [Finset.card_product, Finset.card_range, Finset.card_univ, Nat.mul_comm]

/-- What different keys count is counted in the whole. -/
theorem sum_count_le [DecidableEq κ] (keys : Finset κ) (past : List τ) :
    ∑ k ∈ keys, past.countP (fun t => key t = k) ≤ past.length := by
  induction past with
  | nil => simp
  | cons t past ih =>
      have here : ∑ k ∈ keys, (if key t = k then 1 else 0) ≤ 1 := by
        rw [Finset.sum_ite_eq]
        split <;> omega
      simp only [List.countP_cons, decide_eq_true_eq, Finset.sum_add_distrib, List.length_cons]
      omega

/-- The turns, counted by key. -/
theorem length_le_sum_count [DecidableEq κ] {keys : Finset κ} (known : ∀ t ∈ past, key t ∈ keys) :
    past.length ≤ ∑ k ∈ keys, past.countP (fun t => key t = k) := by
  induction past with
  | nil => simp
  | cons t past ih =>
      obtain ⟨here, rest⟩ := List.forall_mem_cons.mp known
      have once : ∑ k ∈ keys, (if key t = k then 1 else 0) = 1 := by
        rw [Finset.sum_ite_eq, if_pos here]
      have shorter := ih rest
      simp only [List.countP_cons, decide_eq_true_eq, Finset.sum_add_distrib, List.length_cons]
      omega

/-- Units that have a turn each. -/
theorem units_le {υ : Type*} [DecidableEq υ] {unit : τ → υ} {units : Finset υ}
    (each : ∀ u ∈ units, ∃ t ∈ past, unit t = u) : units.card ≤ past.length := by
  have inside : units ⊆ (past.map unit).toFinset := by
    intro u member
    obtain ⟨t, turn, rfl⟩ := each u member
    exact List.mem_toFinset.mpr (List.mem_map_of_mem turn)
  exact (Finset.card_le_card inside).trans
    ((List.toFinset_card_le _).trans_eq (List.length_map _))

/-- Slots in each of which every unit has a turn. -/
theorem full_le {υ : Type*} [DecidableEq υ] [Fintype υ] {unit : τ → υ} {slots : Finset Nat}
    (full : ∀ s ∈ slots, ∀ u, ∃ t ∈ past, slot t = s ∧ unit t = u) :
    slots.card * Fintype.card υ ≤ past.length := by
  have inside : slots ×ˢ (Finset.univ : Finset υ) ⊆
      (past.map fun t => (slot t, unit t)).toFinset := by
    rintro ⟨s, u⟩ member
    obtain ⟨t, turn, rfl, rfl⟩ := full s (Finset.mem_product.mp member).1 u
    exact List.mem_toFinset.mpr (List.mem_map_of_mem turn)
  calc slots.card * Fintype.card υ
      = (slots ×ˢ (Finset.univ : Finset υ)).card := by rw [Finset.card_product, Finset.card_univ]
    _ ≤ _ := Finset.card_le_card inside
    _ ≤ past.length := (List.toFinset_card_le _).trans_eq (List.length_map _)

/-- A stretch of slots in each of which a job has a turn, or else every unit has one, but for a few:
the slots without a turn of the job are full of turns of other jobs. -/
theorem stretch_le [DecidableEq κ] {υ : Type*} [DecidableEq υ] [Fintype υ] {unit : τ → υ} {job : κ}
    {few : Finset Nat}
    (covered : ∀ s, lo ≤ s → s < hi → (∃ t ∈ past, slot t = s ∧ key t = job) ∨
      (∀ u, ∃ t ∈ past, slot t = s ∧ unit t = u) ∨ s ∈ few) :
    (hi - lo - past.countP (fun t => key t = job) - few.card) * Fintype.card υ ≤
      (past.filter fun t => key t ≠ job).length := by
  let own := ((past.filter fun t => key t = job).map slot).toFinset
  let full := (Finset.Ico lo hi \ own) \ few
  have own_card : own.card ≤ past.countP fun t => key t = job := by
    rw [List.countP_eq_length_filter, ← List.length_map (f := slot)]
    exact List.toFinset_card_le _
  have full_card : hi - lo - past.countP (fun t => key t = job) - few.card ≤ full.card := by
    have first := Finset.le_card_sdiff own (Finset.Ico lo hi)
    have second := Finset.le_card_sdiff few (Finset.Ico lo hi \ own)
    rw [Nat.card_Ico] at first
    change _ ≤ full.card at second
    omega
  have turns : ∀ s ∈ full, ∀ u, ∃ t ∈ past.filter fun t => key t ≠ job,
      slot t = s ∧ unit t = u := by
    intro s member u
    obtain ⟨stretch, not_few⟩ := Finset.mem_sdiff.mp member
    obtain ⟨stretch, not_own⟩ := Finset.mem_sdiff.mp stretch
    obtain ⟨after, before⟩ := Finset.mem_Ico.mp stretch
    have no_turn : ∀ t ∈ past, slot t = s → key t ≠ job := by
      rintro t turn rfl mine
      refine not_own (List.mem_toFinset.mpr (List.mem_map_of_mem ?_))
      exact List.mem_filter.mpr ⟨turn, decide_eq_true mine⟩
    rcases covered s after before with ⟨t, turn, at_slot, mine⟩ | busy | spared
    · exact absurd mine (no_turn t turn at_slot)
    · obtain ⟨t, turn, at_slot, on_unit⟩ := busy u
      exact ⟨t, List.mem_filter.mpr ⟨turn, decide_eq_true (no_turn t turn at_slot)⟩, at_slot,
        on_unit⟩
    · exact absurd spared not_few
  exact (Nat.mul_le_mul_right _ full_card).trans (full_le turns)

end Chart
