import OsSim.LiveRegions

/-! What __alloc promises for one call. It keeps the promise where the piece it cuts comes
from a region with the number it was asked for, or where there is no room at all: an area
that may grow is grown with a NULL pointer for the amount. -/
namespace OsSim
open Cover

namespace VmArea

/-- The two ends of an area, whichever way it grows. -/
def lo (vma : VmArea) : Nat := min vma.vmStart.toNat vma.vmEnd.toNat
def hi (vma : VmArea) : Nat := max vma.vmStart.toNat vma.vmEnd.toNat

def bytes (vma : VmArea) : Set Nat := Set.Ico vma.lo vma.hi

/-- The range of an area grown by `amt`: the heap, area 1, grows down. -/
def grown (vma : VmArea) (vmaid : Int) (amt : Nat) : Set Nat :=
  if vmaid = 1 then Set.Ico (vma.vmEnd.toNat - amt) vma.vmStart.toNat
  else Set.Ico vma.vmStart.toNat (vma.vmEnd.toNat + amt)

end VmArea

namespace Vmm

/-- Two areas apart from each other within the memory of the process, and regions apart
from one another, each inside the area it has the number of. -/
structure Consistent (vm : Vmm) (vmemsz : BitVec 32) : Prop where
  numbers : vm.mmap.map VmArea.vmId = [0, 1]
  upward : ∀ vma ∈ vm.getVmaByNum 0, vma.vmStart.toNat ≤ vma.vmEnd.toNat
  downward : ∀ vma ∈ vm.getVmaByNum 1, vma.vmEnd.toNat ≤ vma.vmStart.toNat
  within : ∀ vma ∈ vm.mmap, vma.hi ≤ vmemsz.toNat
  areas_apart : vm.mmap.Pairwise fun a b => Disjoint a.bytes b.bytes
  ordered : ∀ rg ∈ vm.regions, rg.rgStart.toNat ≤ rg.rgEnd.toNat
  inside : ∀ rg ∈ vm.regions, (rg.vmaid = 0 ∨ rg.vmaid = 1) ∧
    ∀ vma ∈ vm.getVmaByNum rg.vmaid, vma.lo ≤ rg.rgStart.toNat ∧ rg.rgEnd.toNat ≤ vma.hi
  apart : vm.Apart

/-- The area can be grown by whole pages for `size` bytes, within the memory of the process
and without meeting the other area. -/
def Growable (vm : Vmm) (vmemsz : BitVec 32) (vmaid : Int) (size : Nat) : Prop :=
  ∃ vma ∈ vm.getVmaByNum vmaid, ∃ amt, amt = (size + 255) / 256 * 256 ∧
    (if vmaid = 1 then amt ≤ vma.vmEnd.toNat else vma.vmEnd.toNat + amt ≤ vmemsz.toNat) ∧
    ∀ other ∈ vm.mmap, other.vmId ≠ vma.vmId → Disjoint (vma.grown vmaid amt) other.bytes

/-- The symbol has `size` bytes of the area, and shares none with another live symbol. -/
structure Granted (vm : Vmm) (vmaid : Int) (rgid : Fin pagingMaxSymtblSz) (size : Nat) : Prop where
  number : (vm.symrg rgid).vmaid = vmaid
  length : (vm.symrg rgid).rgEnd.toNat = (vm.symrg rgid).rgStart.toNat + size
  limits : ∃ vma ∈ vm.getVmaByNum vmaid, vma.lo ≤ (vm.symrg rgid).rgStart.toNat ∧
    (vm.symrg rgid).rgEnd.toNat ≤ vma.hi
  alone : ∀ i : Fin pagingMaxSymtblSz, i ≠ rgid → (vm.symrg i).vmaid ≠ -1 →
    Disjoint (vm.symrg i).bytes (vm.symrg rgid).bytes

/-- `__alloc` returns, with the symbol granted or nothing changed, and with the symbol granted
wherever the area could be grown for it. -/
def AllocKept (vm : Vmm) (vmemsz : BitVec 32) (vmaid : Int) (rgid : Fin pagingMaxSymtblSz)
    (size : BitVec 32) : Prop :=
  ∃ ret vm', vm.alloc vmemsz vmaid rgid.val size = .ok (ret, vm') ∧
    (ret = true → vm'.Granted vmaid rgid size.toNat) ∧ (ret = false → vm' = vm) ∧
    (vm.Growable vmemsz vmaid size.toNat → ret = true)

/-- The free list that __alloc searches. -/
def freeList (vm : Vmm) (vmaid : Int) : List VmRg :=
  ((vm.getVmaByNum vmaid).map VmArea.vmFreergList).getD []

theorem freeList_eq {vm : Vmm} {vmaid : Int} {vma : VmArea}
    (area : vm.getVmaByNum vmaid = some vma) : vm.freeList vmaid = vma.vmFreergList := by
  rw [freeList, area]
  rfl

theorem freeList_setFreergList {vm : Vmm} {vmaid : Int} {vma : VmArea}
    (area : vm.getVmaByNum vmaid = some vma) (list : List VmRg) :
    (vm.setFreergList vmaid list).freeList vmaid = list :=
  freeList_eq (getVmaByNum_setFreergList area list)

section Consistency
variable {vm : Vmm} {vmemsz : BitVec 32}

theorem Consistent.two (con : vm.Consistent vmemsz) : ∃ a b, vm.mmap = [a, b] := by
  have two := congrArg List.length con.numbers
  rw [List.length_map] at two
  exact List.length_eq_two.mp two

theorem Consistent.area (con : vm.Consistent vmemsz) (vmaid : Fin 2) :
    ∃ vma, vm.getVmaByNum vmaid.val = some vma ∧ vma ∈ vm.mmap := by
  obtain ⟨a, b, areas⟩ := con.two
  unfold getVmaByNum
  rw [areas]
  obtain rfl | rfl : vmaid = 0 ∨ vmaid = 1 := by omega
  · exact ⟨a, rfl, List.mem_cons_self⟩
  · exact ⟨b, rfl, List.mem_cons_of_mem _ List.mem_cons_self⟩

theorem Consistent.wellFormed (con : vm.Consistent vmemsz) {rg : VmRg} (member : rg ∈ vm.regions)
    {size : Nat} (small : size < 2 ^ 31) : rg.WellFormed size := by
  refine ⟨con.ordered rg member, ?_⟩
  obtain ⟨number, inside⟩ := con.inside rg member
  obtain ⟨vma, area, listed⟩ : ∃ vma, vm.getVmaByNum rg.vmaid = some vma ∧ vma ∈ vm.mmap := by
    rcases number with number | number
    · rw [number]
      exact con.area 0
    · rw [number]
      exact con.area 1
  have := (inside vma area).2
  have := con.within vma listed
  have := vmemsz.isLt
  omega

/-- A byte is in one area at most. -/
theorem Consistent.area_unique (con : vm.Consistent vmemsz) {m n : Fin 2} {a b : VmArea}
    (first : vm.getVmaByNum m.val = some a) (second : vm.getVmaByNum n.val = some b) {x : Nat}
    (here : x ∈ a.bytes) (there : x ∈ b.bytes) : m = n := by
  obtain ⟨c, d, areas⟩ := con.two
  have apart := con.areas_apart
  rw [areas, List.pairwise_cons] at apart
  have disjoint := Set.disjoint_left.mp (apart.1 d List.mem_cons_self)
  unfold getVmaByNum at first second
  rw [areas] at first second
  obtain rfl | rfl : m = 0 ∨ m = 1 := by omega
  · obtain rfl | rfl : n = 0 ∨ n = 1 := by omega
    · rfl
    · obtain rfl := Option.some.inj first
      obtain rfl := Option.some.inj second
      exact absurd there (disjoint here)
  · obtain rfl | rfl : n = 0 ∨ n = 1 := by omega
    · obtain rfl := Option.some.inj first
      obtain rfl := Option.some.inj second
      exact absurd here (disjoint there)
    · rfl

/-- A piece of a free region that is inside an area is a piece of one of its own regions. -/
theorem Consistent.number_iff (con : vm.Consistent vmemsz) {vmaid : Fin 2} {vma : VmArea}
    (area : vm.getVmaByNum vmaid.val = some vma) {rg piece : VmRg} (member : rg ∈ vm.regions)
    (low : rg.rgStart.toNat ≤ piece.rgStart.toNat) (high : piece.rgEnd.toNat ≤ rg.rgEnd.toNat)
    (some_bytes : piece.rgStart.toNat < piece.rgEnd.toNat) :
    vma.lo ≤ piece.rgStart.toNat ∧ piece.rgEnd.toNat ≤ vma.hi ↔ rg.vmaid = vmaid.val := by
  obtain ⟨number, inside⟩ := con.inside rg member
  constructor
  · rintro ⟨above, below⟩
    obtain ⟨n, same⟩ : ∃ n : Fin 2, rg.vmaid = n.val := by
      rcases number with number | number
      · exact ⟨0, number⟩
      · exact ⟨1, number⟩
    obtain ⟨other, there, _⟩ := con.area n
    obtain ⟨above', below'⟩ := inside other (same ▸ there)
    have unique := con.area_unique area there (x := piece.rgStart.toNat)
      ⟨above, by omega⟩ ⟨by omega, by omega⟩
    rw [same, unique]
  · intro same
    obtain ⟨above, below⟩ := inside vma (same ▸ area)
    exact ⟨by omega, by omega⟩

end Consistency

theorem freeList_mem {vm : Vmm} {vmaid : Int} {rg : VmRg} (h : rg ∈ vm.freeList vmaid) :
    rg ∈ vm.freeRegions := by
  unfold freeList at h
  cases area : vm.getVmaByNum vmaid with
  | none =>
      rw [area] at h
      cases h
  | some vma =>
      rw [area] at h
      exact List.mem_flatMap.mpr ⟨vma, List.mem_of_getElem? area, h⟩

/-- A piece that __alloc stores is what it promises when it is of a region of the number
asked for. -/
theorem Consistent.granted_iff {vm vm' : Vmm} {vmemsz : BitVec 32} (con : vm.Consistent vmemsz)
    {vmaid : Fin 2} {vma : VmArea} (area : vm.getVmaByNum vmaid.val = some vma)
    {rg newrg : VmRg} (free : rg ∈ vm.freeRegions)
    (low : rg.rgStart.toNat ≤ newrg.rgStart.toNat) (high : newrg.rgEnd.toNat ≤ rg.rgEnd.toNat)
    {size : Nat} (bytes : newrg.rgEnd.toNat = newrg.rgStart.toNat + size) (pos : 0 < size)
    (number : newrg.vmaid = vmaid.val) {rgid : Fin pagingMaxSymtblSz} {list' : List VmRg}
    (entry : vm'.symrg rgid = newrg) (others : ∀ i, i ≠ rgid → vm'.symrg i = vm.symrg i)
    (after : vm'.getVmaByNum vmaid.val = some { vma with vmFreergList := list' }) :
    vm'.Granted vmaid.val rgid size ↔ rg.vmaid = vmaid.val := by
  rw [← con.number_iff area (mem_regions.mpr (.inr free)) low high (by omega)]
  constructor
  · rintro ⟨-, -, ⟨vma', area', limits⟩, -⟩
    obtain rfl := Option.some.inj (after.symm.trans area')
    rw [entry] at limits
    exact limits
  · intro limits
    refine ⟨?_, ?_, ⟨_, after, ?_⟩, ?_⟩
    · rw [entry, number]
    · rw [entry, bytes]
    · rw [entry]
      exact limits
    · intro i other live
      rw [others i other] at live
      rw [others i other, entry]
      have apart := (List.pairwise_append.mp con.apart).2.2 (vm.symrg i)
        (mem_liveRegions.mpr ⟨i, rfl, live⟩) rg free
      exact apart.mono_right (Set.Ico_subset_Ico low high)

/-- In a consistent state the call keeps its promise exactly where the piece comes from a
region of the area's own number, or where there is none, inc_vma_limit refuses to grow the
area and the area indeed cannot be grown. -/
theorem allocKept_iff {vm : Vmm} {vmemsz : BitVec 32} (con : vm.Consistent vmemsz)
    (vmaid : Fin 2) (rgid : Fin pagingMaxSymtblSz) {size : BitVec 32} (pos : 0 < size.toInt) :
    vm.AllocKept vmemsz vmaid.val rgid size ↔
      (∃ rg, supplier vmaid.val size.toNat false (vm.freeList vmaid.val) = some rg ∧
        rg.vmaid = vmaid.val) ∨
      supplier vmaid.val size.toNat false (vm.freeList vmaid.val) = none ∧
        vm.mayGrow vmemsz vmaid.val size = false ∧
        ¬ vm.Growable vmemsz vmaid.val size.toNat := by
  obtain ⟨vma, area, listed⟩ := con.area vmaid
  obtain ⟨-, some_bytes, small⟩ := signExtend_toNat pos
  have list := freeList_eq area
  have member : ∀ rg ∈ vma.vmFreergList, rg ∈ vm.freeRegions := fun rg inside =>
    freeList_mem (list ▸ inside)
  obtain ⟨found, newrg, between, search, searched⟩ := getFreeVmrgArea_spec pos area
    fun rg inside => con.wellFormed (mem_regions.mpr (.inr (member rg inside))) small
  unfold AllocKept
  rw [list]
  cases supplied : supplier vmaid.val size.toNat false vma.vmFreergList with
  | none =>
      obtain ⟨rfl, rfl⟩ := searched.misses supplied
      rw [alloc_not_found pos search]
      cases may : between.mayGrow vmemsz vmaid.val size with
      | true => simp
      | false => simp
  | some rg =>
      obtain rfl := searched.finds supplied
      obtain ⟨list', rfl, -⟩ := searched.left
      obtain ⟨number, low, high, bytes⟩ := searched.piece rg supplied
      have inside := member rg (supplier_mem supplied).1
      let after := (vm.setFreergList vmaid.val list').setSymrg rgid newrg
      have granted : after.Granted vmaid.val rgid size.toNat ↔ rg.vmaid = vmaid.val :=
        con.granted_iff area inside low high bytes some_bytes number
          (symrg_setSymrg_self _ rgid newrg) (fun i other => symrg_setSymrg_ne _ other newrg)
          (getVmaByNum_setFreergList area list')
      rw [alloc_found pos search, storeSymrg, symIndex_val]
      constructor
      · rintro ⟨ret, vm', returned, given, -⟩
        obtain ⟨rfl, rfl⟩ := Prod.mk.inj (Except.ok.inj returned)
        exact .inl ⟨rg, rfl, granted.mp (given rfl)⟩
      · rintro (⟨_, same, own⟩ | ⟨none, _⟩)
        · obtain rfl := Option.some.inj same
          exact ⟨true, _, rfl, fun _ => granted.mpr own, by simp, fun _ => rfl⟩
        · cases none

theorem VmArea.bytes_disjoint {a b : VmArea} (below : a.hi ≤ b.lo) : Disjoint a.bytes b.bytes := by
  apply Set.disjoint_left.mpr
  intro x low high
  exact absurd (low.2.trans_le below) (not_lt.mpr high.1)

theorem twoAreas_consistent : twoAreas.Consistent 4096 where
  numbers := rfl
  upward := by decide +kernel
  downward := by decide +kernel
  within := by decide +kernel
  areas_apart := by
    refine List.pairwise_pair.mpr (VmArea.bytes_disjoint ?_)
    decide +kernel
  ordered := by decide +kernel
  inside := by decide +kernel
  apart := twoAreas_apart

/-- 150 bytes are cut off the 200 at the front of the list. -/
theorem allocKept_iff_twoAreas : twoAreas.AllocKept 4096 0 1 150 :=
  (allocKept_iff twoAreas_consistent 0 1 (by decide)).mpr
    (.inl ⟨⟨0, 0, 200⟩, by decide +kernel, rfl⟩)

/-- What init_mm sets up: two areas of no bytes, with a region of no bytes each. It leaves the
symbol table as it finds it; here no symbol is live. -/
def initMm : Vmm where
  mmap := [⟨0, 0, 0, [⟨0, 0, 0⟩]⟩, ⟨1, 0, 0, [⟨0, 0, 0⟩]⟩]
  symrgtbl := Vector.replicate 30 ⟨-1, 0, 0⟩

theorem initMm_consistent : initMm.Consistent 0x300000 where
  numbers := rfl
  upward := by decide +kernel
  downward := by decide +kernel
  within := by decide +kernel
  areas_apart := by
    refine List.pairwise_pair.mpr (VmArea.bytes_disjoint ?_)
    decide +kernel
  ordered := by decide +kernel
  inside := by decide +kernel
  apart := by
    have two : initMm.regions = [⟨0, 0, 0⟩, ⟨0, 0, 0⟩] := by decide +kernel
    rw [Apart, two]
    exact List.pairwise_pair.mpr (VmRg.bytes_disjoint le_rfl)

/-- The first allocation of a process: area 0 may grow, and growing it faults. -/
theorem first_alloc_faults : ¬ ∀ (vm : Vmm) (vmemsz : BitVec 32), vm.Consistent vmemsz →
    ∀ (vmaid : Fin 2) (rgid : Fin pagingMaxSymtblSz) (size : BitVec 32), 0 < size.toInt →
      vm.AllocKept vmemsz vmaid.val rgid size := by
  intro claim
  obtain ⟨ret, vm', returned, _⟩ := claim initMm 0x300000 initMm_consistent 0 0 300 (by decide)
  have faults : initMm.alloc 0x300000 0 0 300 = .error .nullIncLimitRet := by decide +kernel
  cases faults.symm.trans returned

end Vmm
end OsSim
