import OsSim.FreeMemph

/-! Page table entries over any sequence of pte_set_fpn and pte_set_swap. The two encodings
share their bits, so each leaves part of the other behind; what is decoded is the last call's. -/
namespace OsSim

/-- A call on an entry, with arguments that fit their fields. -/
inductive PteCall where
  | setFpn (fpn : Fin (2 ^ 13))
  | setSwap (swptyp : Fin (2 ^ 5)) (swpoff : Fin (2 ^ 21))

/-- The SWPTYP field of an entry. -/
def pteSwptyp (pte : BitVec 32) : Nat := (getVal pte pagingPteSwptypMask 0).toNat

theorem pteSetSwap_swptyp (pte swptyp : BitVec 32) (swpoff : Nat) :
    pteSwptyp (pteSetSwap pte swptyp swpoff) = swptyp.toNat % 2 ^ 5 := by
  rw [pteSwptyp, pteSetSwap, pagingPteSwptypMask, pagingPteSwpoffMask,
    getVal_setVal_other _ _ (by decide) (by decide) (.inr (by decide)),
    getVal_setVal _ _ (by decide)]

theorem pteSetSwap_swp (pte swptyp : BitVec 32) (swpoff : Nat) :
    pteSwp (pteSetSwap pte swptyp swpoff) = swpoff % 2 ^ 21 := by
  rw [pteSwp, pteSetSwap, pagingPteSwpoffMask, getVal_setVal _ _ (by decide), BitVec.toNat_ofNat]
  omega

/-- The bits from 26 to 29 belong to no field that a call sets. -/
theorem pteSetFpn_spare (pte : BitVec 32) (fpn : Nat) {i : Nat} (low : 26 ≤ i) (high : i ≤ 29) :
    (pteSetFpn pte fpn).getLsbD i = pte.getLsbD i := by
  rw [pteSetFpn, pagingPteFpnMask, setVal_getLsbD _ _ (by decide), if_neg (by omega),
    pagingPteSwappedMask, clrBit_getLsbD _ (by decide), pagingPtePresentMask,
    setBit_getLsbD _ (by decide), decide_eq_false (by omega), decide_eq_false (by omega)]
  simp

theorem pteSetSwap_spare (pte swptyp : BitVec 32) (swpoff : Nat) {i : Nat} (low : 26 ≤ i)
    (high : i ≤ 29) : (pteSetSwap pte swptyp swpoff).getLsbD i = pte.getLsbD i := by
  rw [pteSetSwap, pagingPteSwpoffMask, setVal_getLsbD _ _ (by decide), if_neg (by omega),
    pagingPteSwptypMask, setVal_getLsbD _ _ (by decide), if_neg (by omega),
    pagingPteSwappedMask, setBit_getLsbD _ (by decide), pagingPtePresentMask,
    setBit_getLsbD _ (by decide), decide_eq_false (by omega), decide_eq_false (by omega)]
  simp

namespace PteCall

def apply (pte : BitVec 32) : PteCall → BitVec 32
  | setFpn fpn => pteSetFpn pte fpn
  | setSwap swptyp swpoff => pteSetSwap pte (BitVec.ofNat 32 swptyp) swpoff

def applyAll (pte : BitVec 32) (calls : List PteCall) : BitVec 32 := calls.foldl apply pte

/-- What an entry says is what the call has set. -/
def Decoded (pte : BitVec 32) : PteCall → Prop
  | setFpn fpn => ¬ PteSwapped pte ∧ pteFpn pte = fpn
  | setSwap swptyp swpoff => PteSwapped pte ∧ pteSwptyp pte = swptyp ∧ pteSwp pte = swpoff

theorem apply_present (pte : BitVec 32) (call : PteCall) : PtePresent (apply pte call) := by
  cases call with
  | setFpn fpn => exact pteSetFpn_present pte fpn
  | setSwap swptyp swpoff => exact pteSetSwap_present pte _ swpoff

theorem apply_decoded (pte : BitVec 32) (call : PteCall) : call.Decoded (apply pte call) := by
  cases call with
  | setFpn fpn =>
      refine ⟨pteSetFpn_not_swapped pte fpn, ?_⟩
      rw [apply, pteSetFpn_fpn]
      exact Nat.mod_eq_of_lt fpn.isLt
  | setSwap swptyp swpoff =>
      refine ⟨pteSetSwap_swapped pte _ swpoff, ?_, ?_⟩
      · have := swptyp.isLt
        rw [apply, pteSetSwap_swptyp, BitVec.toNat_ofNat]
        omega
      · rw [apply, pteSetSwap_swp]
        exact Nat.mod_eq_of_lt swpoff.isLt

theorem apply_spare (pte : BitVec 32) (call : PteCall) {i : Nat} (low : 26 ≤ i) (high : i ≤ 29) :
    (apply pte call).getLsbD i = pte.getLsbD i := by
  cases call with
  | setFpn fpn => exact pteSetFpn_spare pte fpn low high
  | setSwap swptyp swpoff => exact pteSetSwap_spare pte _ swpoff low high

theorem applyAll_spare (pte : BitVec 32) (calls : List PteCall) {i : Nat} (low : 26 ≤ i)
    (high : i ≤ 29) : (applyAll pte calls).getLsbD i = pte.getLsbD i := by
  induction calls generalizing pte with
  | nil => rfl
  | cons call calls ih => exact (ih (apply pte call)).trans (apply_spare pte call low high)

/-- After any sequence of calls on any entry: it says present, the last call is what it
decodes to, and the spare bits are what they were. -/
theorem last_call_decoded (pte : BitVec 32) (calls : List PteCall) (last : PteCall) :
    PtePresent (applyAll pte (calls ++ [last])) ∧
      last.Decoded (applyAll pte (calls ++ [last])) ∧
      ∀ i, 26 ≤ i → i ≤ 29 →
        (applyAll pte (calls ++ [last])).getLsbD i = pte.getLsbD i := by
  have final : applyAll pte (calls ++ [last]) = apply (applyAll pte calls) last :=
    List.foldl_append
  refine ⟨?_, ?_, fun i low high => applyAll_spare pte _ low high⟩
  · rw [final]
    exact apply_present _ last
  · rw [final]
    exact apply_decoded _ last

end PteCall
end OsSim
