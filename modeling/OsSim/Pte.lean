import Mathlib.Data.Nat.Bitwise

/-! bitops.h and the page table entries of mm.h, on 32-bit words. Every field is read
bit by bit: the lemmas below say what a macro does to bit i of an entry. -/
namespace OsSim

def bit (nr : Nat) : BitVec 32 := 1#32 <<< nr

def genmask (h l : Nat) : BitVec 32 := (~~~0#32 <<< l) &&& (~~~0#32 >>> (32 - h - 1))

def setBit (v mask : BitVec 32) : BitVec 32 := v ||| mask
def clrBit (v mask : BitVec 32) : BitVec 32 := v &&& ~~~mask

def setVal (v value mask : BitVec 32) (offst : Nat) : BitVec 32 :=
  (v &&& ~~~mask) ||| ((value <<< offst) &&& mask)

def getVal (v mask : BitVec 32) (offst : Nat) : BitVec 32 := (v &&& mask) >>> offst

def pagingCpuBusWidth : Nat := 22
def pagingPageSz : Nat := 256
def pagingMaxPgn : Nat := (2 ^ pagingCpuBusWidth + pagingPageSz - 1) / pagingPageSz

instance : NeZero pagingMaxPgn := ⟨by decide⟩

abbrev Pgn := Fin pagingMaxPgn

def pagingPtePresentMask : BitVec 32 := bit 31
def pagingPteSwappedMask : BitVec 32 := bit 30
def pagingPteFpnMask : BitVec 32 := genmask 12 0
def pagingPteSwptypMask : BitVec 32 := genmask 4 0
def pagingPteSwpoffMask : BitVec 32 := genmask 25 5

/-- `pte_set_swap`. -/
def pteSetSwap (pte swptyp : BitVec 32) (swpoff : Nat) : BitVec 32 :=
  let pte := setBit (setBit pte pagingPtePresentMask) pagingPteSwappedMask
  setVal (setVal pte swptyp pagingPteSwptypMask 0) (BitVec.ofNat 32 swpoff) pagingPteSwpoffMask 5

/-- `pte_set_fpn`. -/
def pteSetFpn (pte : BitVec 32) (fpn : Nat) : BitVec 32 :=
  let pte := clrBit (setBit pte pagingPtePresentMask) pagingPteSwappedMask
  setVal pte (BitVec.ofNat 32 fpn) pagingPteFpnMask 0

def PtePresent (pte : BitVec 32) : Prop := pte &&& pagingPtePresentMask ≠ 0
def PteSwapped (pte : BitVec 32) : Prop := pte &&& pagingPteSwappedMask ≠ 0

instance : DecidablePred PtePresent := fun _ => inferInstanceAs (Decidable (_ ≠ _))
instance : DecidablePred PteSwapped := fun _ => inferInstanceAs (Decidable (_ ≠ _))

def pteFpn (pte : BitVec 32) : Nat := (getVal pte pagingPteFpnMask 0).toNat

/-- The frame a resident page sits in; a page is resident when it is present and not
swapped out. -/
def pteFrame (pte : BitVec 32) : Option Nat :=
  if PtePresent pte ∧ ¬ PteSwapped pte then some (pteFpn pte) else none

section Bits

@[simp] theorem bit_getLsbD {nr : Nat} (h : nr < 32) (i : Nat) :
    (bit nr).getLsbD i = decide (i = nr) := by
  have : bit nr = BitVec.twoPow 32 nr := (BitVec.twoPow_eq 32 nr).symm
  rw [this, BitVec.getLsbD_twoPow]
  simp [h, eq_comm]

@[simp] theorem genmask_getLsbD {h l : Nat} (inside : h < 32) (i : Nat) :
    (genmask h l).getLsbD i = (decide (l ≤ i) && decide (i ≤ h)) := by
  simp only [genmask, BitVec.getLsbD_and, BitVec.getLsbD_shiftLeft, BitVec.getLsbD_ushiftRight,
    BitVec.getLsbD_not, BitVec.getLsbD_zero]
  rw [Bool.eq_iff_iff]
  simp
  omega

theorem setBit_getLsbD (v : BitVec 32) {nr : Nat} (h : nr < 32) (i : Nat) :
    (setBit v (bit nr)).getLsbD i = (v.getLsbD i || decide (i = nr)) := by
  rw [setBit, BitVec.getLsbD_or, bit_getLsbD h]

theorem clrBit_getLsbD (v : BitVec 32) {nr : Nat} (h : nr < 32) (i : Nat) :
    (clrBit v (bit nr)).getLsbD i = (v.getLsbD i && !decide (i = nr)) := by
  rw [clrBit, BitVec.getLsbD_and, BitVec.getLsbD_not, bit_getLsbD h]
  by_cases within : i < 32
  · simp [within]
  · simp [BitVec.getLsbD_of_ge v i (by omega)]

theorem and_bit_ne_zero {nr : Nat} (h : nr < 32) (v : BitVec 32) :
    v &&& bit nr ≠ 0 ↔ v.getLsbD nr = true := by
  constructor
  · intro nonzero
    by_contra clear
    apply nonzero
    apply BitVec.eq_of_getLsbD_eq
    intro i _
    rw [BitVec.getLsbD_and, bit_getLsbD h]
    by_cases same : i = nr
    · subst same
      simpa using clear
    · simp [same]
  · intro up zero
    have := congrArg (fun w => w.getLsbD nr) zero
    simp [BitVec.getLsbD_and, bit_getLsbD h, up] at this

theorem setVal_getLsbD (v value : BitVec 32) {h l : Nat} (inside : h < 32) (i : Nat) :
    (setVal v value (genmask h l) l).getLsbD i =
      if l ≤ i ∧ i ≤ h then value.getLsbD (i - l) else v.getLsbD i := by
  simp only [setVal, BitVec.getLsbD_or, BitVec.getLsbD_and, BitVec.getLsbD_not,
    BitVec.getLsbD_shiftLeft, genmask_getLsbD inside]
  by_cases field : l ≤ i ∧ i ≤ h
  · have : i < 32 := by omega
    simp [field, this]
  · rw [if_neg field]
    by_cases within : i < 32
    · rcases not_and_or.mp field with below | above
      · simp [below, within]
      · simp [above, within]
    · simp [BitVec.getLsbD_of_ge v i (by omega), within]

theorem getVal_testBit (v : BitVec 32) {h l : Nat} (inside : h < 32) (i : Nat) :
    (getVal v (genmask h l) l).toNat.testBit i = (decide (i + l ≤ h) && v.getLsbD (i + l)) := by
  rw [BitVec.testBit_toNat, getVal, BitVec.getLsbD_ushiftRight, BitVec.getLsbD_and,
    genmask_getLsbD inside]
  simp [Nat.add_comm l i, Bool.and_comm]

theorem getVal_toNat (v : BitVec 32) {h l : Nat} (inside : h < 32) :
    (getVal v (genmask h l) l).toNat = v.toNat % 2 ^ (h + 1) / 2 ^ l := by
  apply Nat.eq_of_testBit_eq
  intro i
  rw [getVal_testBit v inside, Nat.testBit_div_two_pow, Nat.testBit_mod_two_pow,
    BitVec.testBit_toNat]
  congr 1
  exact decide_eq_decide.mpr (by omega)

/-- A field that has been set is read as the value, cut off to the bits of the field. -/
theorem getVal_setVal (v value : BitVec 32) {h l : Nat} (inside : h < 32) :
    (getVal (setVal v value (genmask h l) l) (genmask h l) l).toNat =
      value.toNat % 2 ^ (h + 1 - l) := by
  apply Nat.eq_of_testBit_eq
  intro i
  rw [getVal_testBit _ inside, setVal_getLsbD _ _ inside, Nat.testBit_mod_two_pow,
    BitVec.testBit_toNat]
  by_cases field : i + l ≤ h
  · rw [if_pos ⟨Nat.le_add_left l i, field⟩, decide_eq_true field, Nat.add_sub_cancel,
      decide_eq_true (show i < h + 1 - l by omega)]
  · rw [decide_eq_false field, decide_eq_false (show ¬ i < h + 1 - l by omega), Bool.false_and,
      Bool.false_and]

/-- A field is read as before after one that is clear of it has been set. -/
theorem getVal_setVal_other (v value : BitVec 32) {h l h' l' : Nat} (inside : h < 32)
    (inside' : h' < 32) (clear : h < l' ∨ h' < l) :
    (getVal (setVal v value (genmask h l) l) (genmask h' l') l').toNat =
      (getVal v (genmask h' l') l').toNat := by
  apply Nat.eq_of_testBit_eq
  intro i
  rw [getVal_testBit _ inside', getVal_testBit _ inside', setVal_getLsbD _ _ inside]
  by_cases field : i + l' ≤ h'
  · rw [if_neg (by omega)]
  · rw [decide_eq_false field, Bool.false_and, Bool.false_and]

end Bits

theorem present_iff (pte : BitVec 32) : PtePresent pte ↔ pte.getLsbD 31 = true :=
  and_bit_ne_zero (by decide) pte

theorem swapped_iff (pte : BitVec 32) : PteSwapped pte ↔ pte.getLsbD 30 = true :=
  and_bit_ne_zero (by decide) pte

theorem pteFpn_eq (pte : BitVec 32) : pteFpn pte = pte.toNat % 2 ^ 13 := by
  simp [pteFpn, pagingPteFpnMask, getVal_toNat pte (h := 12) (l := 0) (by decide)]

theorem pteFpn_lt (pte : BitVec 32) : pteFpn pte < 2 ^ 13 := by
  rw [pteFpn_eq]
  exact Nat.mod_lt _ (by decide)

theorem pteSetFpn_present (pte : BitVec 32) (fpn : Nat) : PtePresent (pteSetFpn pte fpn) := by
  rw [present_iff, pteSetFpn, pagingPteFpnMask, setVal_getLsbD _ _ (by decide),
    if_neg (by decide), pagingPteSwappedMask, clrBit_getLsbD _ (by decide),
    pagingPtePresentMask, setBit_getLsbD _ (by decide)]
  simp

theorem pteSetFpn_not_swapped (pte : BitVec 32) (fpn : Nat) :
    ¬ PteSwapped (pteSetFpn pte fpn) := by
  rw [swapped_iff, pteSetFpn, pagingPteFpnMask, setVal_getLsbD _ _ (by decide),
    if_neg (by decide), pagingPteSwappedMask, clrBit_getLsbD _ (by decide)]
  simp

/-- The field has 13 bits; a larger frame number is cut off. -/
theorem pteSetFpn_fpn (pte : BitVec 32) (fpn : Nat) :
    pteFpn (pteSetFpn pte fpn) = fpn % 2 ^ 13 := by
  rw [pteFpn, pteSetFpn, pagingPteFpnMask, getVal_setVal _ _ (by decide), BitVec.toNat_ofNat]
  omega

/-- `PAGING_PTE_SET_PRESENT` after it changes nothing. -/
theorem setBit_pteSetFpn (pte : BitVec 32) (fpn : Nat) :
    setBit (pteSetFpn pte fpn) pagingPtePresentMask = pteSetFpn pte fpn := by
  have up := (present_iff _).mp (pteSetFpn_present pte fpn)
  apply BitVec.eq_of_getLsbD_eq
  intro i _
  rw [pagingPtePresentMask, setBit_getLsbD _ (by decide)]
  by_cases same : i = 31
  · rw [same, up, Bool.true_or]
  · rw [decide_eq_false same, Bool.or_false]

theorem pteSetSwap_present (pte swptyp : BitVec 32) (swpoff : Nat) :
    PtePresent (pteSetSwap pte swptyp swpoff) := by
  rw [present_iff, pteSetSwap, pagingPteSwpoffMask, setVal_getLsbD _ _ (by decide),
    if_neg (by decide), pagingPteSwptypMask, setVal_getLsbD _ _ (by decide),
    if_neg (by decide), pagingPteSwappedMask, setBit_getLsbD _ (by decide),
    pagingPtePresentMask, setBit_getLsbD _ (by decide)]
  simp

theorem pteSetSwap_swapped (pte swptyp : BitVec 32) (swpoff : Nat) :
    PteSwapped (pteSetSwap pte swptyp swpoff) := by
  rw [swapped_iff, pteSetSwap, pagingPteSwpoffMask, setVal_getLsbD _ _ (by decide),
    if_neg (by decide), pagingPteSwptypMask, setVal_getLsbD _ _ (by decide),
    if_neg (by decide), pagingPteSwappedMask, setBit_getLsbD _ (by decide)]
  simp

@[simp] theorem pteSetFpn_frame (pte : BitVec 32) (fpn : Nat) :
    pteFrame (pteSetFpn pte fpn) = some (fpn % 2 ^ 13) := by
  rw [pteFrame, if_pos ⟨pteSetFpn_present pte fpn, pteSetFpn_not_swapped pte fpn⟩, pteSetFpn_fpn]

@[simp] theorem pteSetSwap_frame (pte swptyp : BitVec 32) (swpoff : Nat) :
    pteFrame (pteSetSwap pte swptyp swpoff) = none := by
  rw [pteFrame, if_neg fun resident => resident.2 (pteSetSwap_swapped pte swptyp swpoff)]

theorem pteFrame_absent {pte : BitVec 32} (absent : ¬ PtePresent pte) : pteFrame pte = none := by
  rw [pteFrame, if_neg fun resident => absent resident.1]

theorem pteFrame_some {pte : BitVec 32} {fpn : Nat} (h : pteFrame pte = some fpn) :
    PtePresent pte ∧ ¬ PteSwapped pte ∧ pteFpn pte = fpn := by
  unfold pteFrame at h
  split at h
  · rename_i resident
    exact ⟨resident.1, resident.2, Option.some.inj h⟩
  · cases h

/-- `PAGING_PGN` and `PAGING_OFFST` of a virtual address. -/
def pagingPgn (addr : BitVec 32) : Pgn where
  val := (getVal addr (genmask 21 8) 8).toNat
  isLt := by
    rw [getVal_toNat addr (by decide)]
    have : addr.toNat % 2 ^ (21 + 1) < 2 ^ 22 := Nat.mod_lt _ (by decide)
    change _ < 16384
    omega

def pagingOffst (addr : BitVec 32) : Nat := (getVal addr (genmask 7 0) 0).toNat

theorem pagingOffst_lt (addr : BitVec 32) : pagingOffst addr < pagingPageSz := by
  rw [pagingOffst, getVal_toNat addr (by decide), pagingPageSz]
  omega

/-- Page number and offset are the 22 bits of the address that the bus carries. -/
theorem pagingPgn_offst (addr : BitVec 32) :
    (pagingPgn addr).val * pagingPageSz + pagingOffst addr =
      (addr.setWidth pagingCpuBusWidth).toNat := by
  simp only [pagingPgn, pagingOffst, getVal_toNat addr (h := 21) (l := 8) (by decide),
    getVal_toNat addr (h := 7) (l := 0) (by decide), pagingPageSz, pagingCpuBusWidth,
    BitVec.toNat_setWidth]
  omega

theorem same_address_iff (a b : BitVec 32) :
    a.setWidth pagingCpuBusWidth = b.setWidth pagingCpuBusWidth ↔
      pagingPgn a = pagingPgn b ∧ pagingOffst a = pagingOffst b := by
  have ha := pagingPgn_offst a
  have hb := pagingPgn_offst b
  have oa := pagingOffst_lt a
  have ob := pagingOffst_lt b
  rw [← BitVec.toNat_inj, ← ha, ← hb, Fin.ext_iff]
  simp only [pagingPageSz] at oa ob ⊢
  omega

end OsSim
