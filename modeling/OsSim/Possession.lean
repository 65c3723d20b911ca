import Mathlib.Logic.Function.Basic

/-! Exclusive possession: holders hold things taken from a pool, no thing has two holders
and none that is held is in the pool. -/
namespace Possession

variable {P F : Type*}

structure Exclusive (own : P → Option F) (free : List F) : Prop where
  single : ∀ p q f, own p = some f → own q = some f → p = q
  in_use : ∀ p f, own p = some f → f ∉ free

theorem Exclusive.none (free : List F) : Exclusive (fun _ : P => Option.none) free :=
  ⟨nofun, nofun⟩

section Update
variable [DecidableEq P] {own : P → Option F} {free : List F} {p : P} {f : F}

theorem Exclusive.drop (ex : Exclusive own free) (v : P) :
    Exclusive (Function.update own v Option.none) free := by
  have kept : ∀ q g, Function.update own v Option.none q = some g → own q = some g := by
    intro q g h
    by_cases same : q = v
    · rw [same, Function.update_self] at h
      cases h
    · rwa [Function.update_of_ne same] at h
  exact ⟨fun q r g hq hr => ex.single q r g (kept q g hq) (kept r g hr),
    fun q g hq => ex.in_use q g (kept q g hq)⟩

/-- A grant to someone who holds nothing is sound exactly when the thing is nobody's and
not in the pool. -/
theorem Exclusive.grant_iff (ex : Exclusive own free) (idle : own p = Option.none) :
    Exclusive (Function.update own p (some f)) free ↔ f ∉ free ∧ ∀ q, own q ≠ some f := by
  have self : Function.update own p (some f) p = some f := Function.update_self p _ own
  constructor
  · intro after
    refine ⟨after.in_use p f self, ?_⟩
    intro q holds
    by_cases same : q = p
    · rw [same, idle] at holds
      cases holds
    · exact same (after.single q p f ((Function.update_of_ne same _ own).trans holds) self)
  · rintro ⟨unpooled, nobody⟩
    constructor
    · intro q r g hq hr
      by_cases hqp : q = p <;> by_cases hrp : r = p
      · rw [hqp, hrp]
      · rw [hqp, self] at hq
        rw [Function.update_of_ne hrp, ← Option.some.inj hq] at hr
        exact absurd hr (nobody r)
      · rw [hrp, self] at hr
        rw [Function.update_of_ne hqp, ← Option.some.inj hr] at hq
        exact absurd hq (nobody q)
      · rw [Function.update_of_ne hqp] at hq
        rw [Function.update_of_ne hrp] at hr
        exact ex.single q r g hq hr
    · intro q g hq
      by_cases same : q = p
      · rw [same, self] at hq
        exact Option.some.inj hq ▸ unpooled
      · rw [Function.update_of_ne same] at hq
        exact ex.in_use q g hq

/-- The thing is granted to `p` as `v` gives up what it holds: nobody else may hold it. -/
theorem Exclusive.handOver_iff (ex : Exclusive own free) {v : P} (idle : own p = Option.none) :
    Exclusive (Function.update (Function.update own v Option.none) p (some f)) free ↔
      f ∉ free ∧ ∀ q ≠ v, own q ≠ some f := by
  have idle' : Function.update own v Option.none p = Option.none := by
    rw [Function.update_apply, idle, ite_self]
  rw [(ex.drop v).grant_iff idle']
  refine and_congr_right fun _ => forall_congr' fun q => ?_
  by_cases same : q = v
  · simp [same]
  · rw [Function.update_of_ne same]
    exact ⟨fun h _ => h, fun h => h same⟩

theorem Exclusive.take {rest : List F} (ex : Exclusive own (f :: rest)) (once : f ∉ rest)
    (idle : own p = Option.none) : Exclusive (Function.update own p (some f)) rest := by
  have smaller : Exclusive own rest :=
    ⟨ex.single, fun q g hq member => ex.in_use q g hq (List.mem_cons_of_mem f member)⟩
  exact (smaller.grant_iff idle).mpr ⟨once, fun q hq => ex.in_use q f hq List.mem_cons_self⟩

end Update
end Possession
