import OsSim.FreeRegions
import OsSim.Transition

/-! Runs of __alloc and __free: no byte is in two regions, of live symbols or free ones. In
every call the regions cover each byte at most as often as before. -/
namespace OsSim
open Transition Cover

namespace Vmm

/-- The regions of the symbols that are allocated; the other entries carry -1. -/
def liveRegions (vm : Vmm) : List VmRg := vm.symrgtbl.toList.filter fun rg => rg.vmaid ≠ -1

def freeRegions (vm : Vmm) : List VmRg := vm.mmap.flatMap VmArea.vmFreergList

def regions (vm : Vmm) : List VmRg := vm.liveRegions ++ vm.freeRegions

/-- No two regions have a byte in common. -/
def Apart (vm : Vmm) : Prop := vm.regions.Pairwise fun a b => Disjoint a.bytes b.bytes

/-- What the entry of a symbol takes up. -/
def liveBytes (rg : VmRg) : Set Nat := if decide (rg.vmaid ≠ -1) then rg.bytes else ∅

theorem apart_iff (vm : Vmm) : vm.Apart ↔ ∀ b, cover VmRg.bytes vm.regions b ≤ 1 :=
  pairwise_disjoint_iff VmRg.bytes vm.regions

theorem cover_regions (vm : Vmm) (b : Nat) : cover VmRg.bytes vm.regions b =
    cover liveBytes vm.symrgtbl.toList b + cover VmRg.bytes vm.freeRegions b := by
  rw [regions, cover_append, liveRegions, cover_filter]
  rfl

theorem liveBytes_subset (rg : VmRg) : liveBytes rg ⊆ rg.bytes := by
  unfold liveBytes
  split
  · exact subset_rfl
  · exact Set.empty_subset _

theorem liveBytes_of_live {rg : VmRg} (live : rg.vmaid ≠ -1) : rg.bytes ⊆ liveBytes rg := by
  rw [liveBytes, if_pos (decide_eq_true live)]

/-- The entry of a symbol is overwritten. -/
theorem cover_set_regions (vm : Vmm) (i : Fin pagingMaxSymtblSz) (rg : VmRg) (b : Nat) :
    cover VmRg.bytes (vm.setSymrg i rg).regions b + cover liveBytes [vm.symrg i] b =
      cover VmRg.bytes vm.regions b + cover liveBytes [rg] b := by
  have inside : i.val < vm.symrgtbl.toList.length := by simp
  have replaced := cover_set liveBytes inside rg b
  have table : (vm.setSymrg i rg).symrgtbl.toList = vm.symrgtbl.toList.set i.val rg :=
    Vector.toList_set i.isLt
  have frees : (vm.setSymrg i rg).freeRegions = vm.freeRegions := rfl
  have entry : vm.symrgtbl.toList[i.val] = vm.symrg i := Vector.getElem_toList _
  rw [cover_regions, cover_regions, table, frees]
  rw [entry] at replaced
  omega

theorem cover_setFreergList (vm : Vmm) {vmaid : Int} {vma : VmArea}
    (h : vm.getVmaByNum vmaid = some vma) (list : List VmRg) (b : Nat) :
    cover VmRg.bytes (vm.setFreergList vmaid list).regions b + cover VmRg.bytes vma.vmFreergList b =
      cover VmRg.bytes vm.regions b + cover VmRg.bytes list b := by
  have replaced : cover VmRg.bytes (vm.setFreergList vmaid list).freeRegions b +
      cover VmRg.bytes vma.vmFreergList b =
        cover VmRg.bytes vm.freeRegions b + cover VmRg.bytes list b :=
    cover_flatMap_modify VmRg.bytes VmArea.vmFreergList _ h b
  have table : (vm.setFreergList vmaid list).symrgtbl = vm.symrgtbl := rfl
  rw [cover_regions, cover_regions, table]
  omega

end Vmm

/-- A call of __alloc or __free. -/
inductive RegionOp where
  | alloc (vmaid : Fin 2) (rgid : Fin pagingMaxSymtblSz) (size : BitVec 32)
  | free (rgid : Int)
  deriving DecidableEq

/-- The bytes a call asks for. -/
def RegionOp.requested : RegionOp → Nat
  | .alloc _ _ size => size.toInt.toNat
  | .free _ => 0

namespace Vmm

/-- A call that does not return ends the run. -/
def regionStep (vmemsz : BitVec 32) (vm : Vmm) : RegionOp → Option Vmm
  | .alloc vmaid rgid size => (vm.alloc vmemsz vmaid.val rgid.val size).toOption.map Prod.snd
  | .free rgid => (vm.free rgid).toOption.map Prod.snd

/-- What calls do to the regions: they cover no byte more often, and reach no further. -/
structure Shrinks (vm vm' : Vmm) : Prop where
  covers : ∀ b, cover VmRg.bytes vm'.regions b ≤ cover VmRg.bytes vm.regions b
  bounded : ∀ rg' ∈ vm'.regions, rg'.rgStart.toNat ≤ rg'.rgEnd.toNat ∧
    ∃ rg ∈ vm.regions, rg'.rgEnd.toNat ≤ rg.rgEnd.toNat

theorem Shrinks.refl {vm : Vmm} (ordered : ∀ rg ∈ vm.regions, rg.rgStart.toNat ≤ rg.rgEnd.toNat) :
    vm.Shrinks vm :=
  ⟨fun _ => le_rfl, fun rg member => ⟨ordered rg member, rg, member, le_rfl⟩⟩

theorem mem_liveRegions {vm : Vmm} {rg : VmRg} : rg ∈ vm.liveRegions ↔
    ∃ i : Fin pagingMaxSymtblSz, vm.symrg i = rg ∧ rg.vmaid ≠ -1 := by
  rw [liveRegions, List.mem_filter, Vector.mem_toList_iff, Vector.mem_iff_getElem,
    decide_eq_true_iff]
  constructor
  · rintro ⟨⟨i, inside, entry⟩, live⟩
    exact ⟨⟨i, inside⟩, entry, live⟩
  · rintro ⟨i, entry, live⟩
    exact ⟨⟨i, i.isLt, entry⟩, live⟩

theorem mem_regions {vm : Vmm} {rg : VmRg} : rg ∈ vm.regions ↔
    (∃ i : Fin pagingMaxSymtblSz, vm.symrg i = rg ∧ rg.vmaid ≠ -1) ∨ rg ∈ vm.freeRegions := by
  rw [regions, List.mem_append, mem_liveRegions]

@[simp] theorem symrg_setSymrg_self (vm : Vmm) (i : Fin pagingMaxSymtblSz) (rg : VmRg) :
    (vm.setSymrg i rg).symrg i = rg := Vector.getElem_set_self i.isLt

theorem symrg_setSymrg_ne (vm : Vmm) {i j : Fin pagingMaxSymtblSz} (other : j ≠ i) (rg : VmRg) :
    (vm.setSymrg i rg).symrg j = vm.symrg j :=
  Vector.getElem_set_ne i.isLt j.isLt fun same => other (Fin.ext same.symm)

theorem mem_regions_set {vm : Vmm} {i : Fin pagingMaxSymtblSz} {rg rg' : VmRg}
    (h : rg' ∈ (vm.setSymrg i rg).regions) :
    rg' = rg ∧ rg.vmaid ≠ -1 ∨ rg' ∈ vm.regions := by
  rcases mem_regions.mp h with ⟨j, entry, live⟩ | free
  · by_cases same : j = i
    · rw [same, symrg_setSymrg_self] at entry
      exact .inl ⟨entry.symm, entry ▸ live⟩
    · rw [symrg_setSymrg_ne vm same] at entry
      exact .inr (mem_regions.mpr (.inl ⟨j, entry, live⟩))
  · exact .inr (mem_regions.mpr (.inr free))

theorem mem_regions_setFreergList {vm : Vmm} {vmaid : Int} {list : List VmRg} {rg : VmRg}
    (h : rg ∈ (vm.setFreergList vmaid list).regions) : rg ∈ list ∨ rg ∈ vm.regions := by
  rcases mem_regions.mp h with live | free
  · exact .inr (mem_regions.mpr (.inl live))
  · obtain ⟨vma, member, inside⟩ := List.mem_flatMap.mp free
    obtain ⟨n, there⟩ := List.mem_iff_getElem?.mp member
    change (vm.mmap.modify _ _)[n]? = some vma at there
    rw [List.getElem?_modify] at there
    split at there
    · obtain ⟨old, _, rfl⟩ := Option.map_eq_some_iff.mp there
      exact .inl inside
    · replace there := (id_map' _).symm.trans there
      exact .inr (mem_regions.mpr (.inr (List.mem_flatMap.mpr
        ⟨vma, List.mem_of_getElem? there, inside⟩)))

theorem mem_regions_listed {vm : Vmm} {vmaid : Int} {vma : VmArea}
    (area : vm.getVmaByNum vmaid = some vma) {rg : VmRg} (h : rg ∈ vma.vmFreergList) :
    rg ∈ vm.regions :=
  mem_regions.mpr (.inr (List.mem_flatMap.mpr ⟨vma, List.mem_of_getElem? area, h⟩))

/-- A piece cut off the free list of an area is stored as a symbol. -/
theorem Searched.shrinks {vm vm' : Vmm} {vmaid : Int} {vma : VmArea} {size : Nat}
    {newrg rg : VmRg} (area : vm.getVmaByNum vmaid = some vma)
    (ordered : ∀ rg ∈ vm.regions, rg.rgStart.toNat ≤ rg.rgEnd.toNat)
    (searched : Searched vm vmaid size vma.vmFreergList true newrg vm')
    (supplied : supplier vmaid size false vma.vmFreergList = some rg)
    (rgid : Fin pagingMaxSymtblSz) : vm.Shrinks (vm'.setSymrg rgid newrg) := by
  obtain ⟨list', rfl, covers, bounded⟩ := searched.left
  obtain ⟨-, -, high, bytes⟩ := searched.piece rg supplied
  constructor
  · intro b
    have table := cover_set_regions (vm.setFreergList vmaid list') rgid newrg b
    have lists := cover_setFreergList vm area list' b
    have live := cover_mono liveBytes (liveBytes_subset newrg) b
    have cut := covers rfl b
    omega
  · intro rg' member
    rcases mem_regions_set member with ⟨rfl, -⟩ | member
    · exact ⟨by omega, rg, mem_regions_listed area (supplier_mem supplied).1, high⟩
    · rcases mem_regions_setFreergList member with cut | old
      · obtain ⟨order, whole, there, bound⟩ := bounded rg' cut
        exact ⟨order, whole, mem_regions_listed area there, bound⟩
      · exact ⟨ordered rg' old, rg', old, le_rfl⟩

theorem alloc_shrinks {vm vm' : Vmm} {vmemsz : BitVec 32} {vmaid : Int}
    {rgid : Fin pagingMaxSymtblSz} {size : BitVec 32} {ret : Bool}
    (ordered : ∀ rg ∈ vm.regions, rg.rgStart.toNat ≤ rg.rgEnd.toNat)
    (no_wrap : ∀ rg ∈ vm.regions, rg.rgEnd.toNat + size.toInt.toNat < 2 ^ 64)
    (h : vm.alloc vmemsz vmaid rgid.val size = .ok (ret, vm')) : vm.Shrinks vm' := by
  by_cases pos : 0 < size.toInt
  · cases area : vm.getVmaByNum vmaid with
    | none =>
        rw [alloc_error pos (by rw [getFreeVmrgArea, area])] at h
        cases h
    | some vma =>
        have wf : ∀ rg ∈ vma.vmFreergList, rg.WellFormed size.toNat := by
          intro rg member
          have room := no_wrap rg (mem_regions_listed area member)
          rw [toInt_toNat pos] at room
          exact ⟨ordered rg (mem_regions_listed area member), room⟩
        obtain ⟨found, newrg, between, search, searched⟩ :=
          getFreeVmrgArea_spec pos area wf
        cases supplied : supplier vmaid size.toNat false vma.vmFreergList with
        | none =>
            obtain ⟨rfl, rfl⟩ := searched.misses supplied
            rw [alloc_not_found pos search] at h
            split at h
            · cases h
            · obtain ⟨-, rfl⟩ := Prod.mk.inj (Except.ok.inj h)
              exact .refl ordered
        | some rg =>
            obtain rfl := searched.finds supplied
            rw [alloc_found pos search, storeSymrg, symIndex_val] at h
            obtain ⟨-, rfl⟩ := Prod.mk.inj (Except.ok.inj h)
            exact searched.shrinks area ordered supplied rgid
  · rw [alloc_nonpos pos] at h
    obtain ⟨-, rfl⟩ := Prod.mk.inj (Except.ok.inj h)
    exact .refl ordered

theorem enlistVmFreergList_cases {vm vm' : Vmm} {rg : VmRg}
    (h : vm.enlistVmFreergList rg = .ok vm') : vm' = vm ∨ ∃ vma, vm.getVmaByNum 0 = some vma ∧
      vm' = vm.setFreergList 0 (rg :: vma.vmFreergList) := by
  unfold enlistVmFreergList at h
  split at h
  · cases h
  · rename_i vma rest areas
    split at h
    · exact .inl (Except.ok.inj h).symm
    · refine .inr ⟨vma, ?_, ?_⟩
      · rw [getVmaByNum, areas]
        rfl
      · rw [← Except.ok.inj h, setFreergList, areas]
        rfl

/-- A live region goes to the front of the first area's list, and its entry is dropped. -/
theorem moved_shrinks {vm between : Vmm} {vma : VmArea} (area : vm.getVmaByNum 0 = some vma)
    (ordered : ∀ rg ∈ vm.regions, rg.rgStart.toNat ≤ rg.rgEnd.toNat)
    {i : Fin pagingMaxSymtblSz} (live : (vm.symrg i).vmaid ≠ -1)
    (moved : between = vm.setFreergList 0 (vm.symrg i :: vma.vmFreergList)) :
    vm.Shrinks (between.setSymrg i ⟨-1, 0, 0⟩) := by
  constructor
  · intro b
    have table := cover_set_regions between i ⟨-1, 0, 0⟩ b
    have entry : between.symrg i = vm.symrg i := by
      rw [moved]
      rfl
    have lists := cover_setFreergList vm area (vm.symrg i :: vma.vmFreergList) b
    have kept := cover_mono VmRg.bytes (liveBytes_of_live live) b
    have dropped : cover liveBytes [⟨-1, 0, 0⟩] b = 0 := cover_empty _ rfl b
    rw [← moved, cover_cons_append _ (vm.symrg i)] at lists
    rw [entry] at table
    omega
  · intro rg' there
    have old : rg' ∈ vm.regions := by
      rcases mem_regions_set there with ⟨rfl, dead⟩ | between
      · exact absurd rfl dead
      · rw [moved] at between
        rcases mem_regions_setFreergList between with listed | old
        · rcases List.mem_cons.mp listed with rfl | listed
          · exact mem_regions.mpr (.inl ⟨i, rfl, live⟩)
          · exact mem_regions_listed area listed
        · exact old
    exact ⟨ordered rg' old, rg', old, le_rfl⟩

theorem dropped_shrinks {vm : Vmm}
    (ordered : ∀ rg ∈ vm.regions, rg.rgStart.toNat ≤ rg.rgEnd.toNat)
    (i : Fin pagingMaxSymtblSz) : vm.Shrinks (vm.setSymrg i ⟨-1, 0, 0⟩) := by
  constructor
  · intro b
    have table := cover_set_regions vm i ⟨-1, 0, 0⟩ b
    have dropped : cover liveBytes [⟨-1, 0, 0⟩] b = 0 := cover_empty _ rfl b
    omega
  · intro rg' there
    rcases mem_regions_set there with ⟨rfl, dead⟩ | old
    · exact absurd rfl dead
    · exact ⟨ordered rg' old, rg', old, le_rfl⟩

theorem free_shrinks {vm vm' : Vmm} {rgid : Int} {ret : Bool}
    (ordered : ∀ rg ∈ vm.regions, rg.rgStart.toNat ≤ rg.rgEnd.toNat)
    (h : vm.free rgid = .ok (ret, vm')) : vm.Shrinks vm' := by
  unfold free at h
  cases index : symIndex rgid with
  | none =>
      rw [index] at h
      obtain ⟨-, rfl⟩ := Prod.mk.inj (Except.ok.inj h)
      exact .refl ordered
  | some i =>
      rw [index] at h
      dsimp only at h
      split at h
      · obtain ⟨-, rfl⟩ := Prod.mk.inj (Except.ok.inj h)
        exact .refl ordered
      · rename_i known
        cases enlisted : vm.enlistVmFreergList (vm.symrg i) with
        | error _ =>
            rw [enlisted] at h
            cases h
        | ok between =>
            rw [enlisted] at h
            obtain ⟨-, rfl⟩ := Prod.mk.inj (Except.ok.inj h)
            rcases enlistVmFreergList_cases enlisted with rfl | ⟨vma, area, moved⟩
            · exact dropped_shrinks ordered i
            · exact moved_shrinks area ordered (by omega) moved

/-- The step lemma. -/
theorem regionStep_shrinks {vm vm' : Vmm} {vmemsz : BitVec 32} {op : RegionOp}
    (ordered : ∀ rg ∈ vm.regions, rg.rgStart.toNat ≤ rg.rgEnd.toNat)
    (no_wrap : ∀ rg ∈ vm.regions, rg.rgEnd.toNat + op.requested < 2 ^ 64)
    (h : vm.regionStep vmemsz op = some vm') : vm.Shrinks vm' := by
  cases op with
  | alloc vmaid rgid size =>
      cases returned : vm.alloc vmemsz vmaid.val rgid.val size with
      | error _ =>
          rw [regionStep, returned] at h
          cases h
      | ok r =>
          rw [regionStep, returned] at h
          obtain rfl := Option.some.inj h
          exact alloc_shrinks ordered no_wrap returned
  | free rgid =>
      cases returned : vm.free rgid with
      | error _ =>
          rw [regionStep, returned] at h
          cases h
      | ok r =>
          rw [regionStep, returned] at h
          obtain rfl := Option.some.inj h
          exact free_shrinks ordered returned

/-- In every state of every run of __alloc and __free, the regions of the live symbols and
the free regions are pairwise disjoint. -/
theorem regions_apart {vm : Vmm} {vmemsz : BitVec 32} {ops : List RegionOp}
    (ordered : ∀ rg ∈ vm.regions, rg.rgStart.toNat ≤ rg.rgEnd.toNat)
    (no_wrap : ∀ rg ∈ vm.regions, ∀ op ∈ ops, rg.rgEnd.toNat + op.requested < 2 ^ 64)
    (apart : vm.Apart) : Always (regionStep vmemsz) Apart vm ops := by
  induction ops generalizing vm with
  | nil => exact apart
  | cons op ops ih =>
      refine ⟨apart, ?_⟩
      intro vm' moved
      have shrinks := regionStep_shrinks ordered
        (fun rg member => no_wrap rg member op List.mem_cons_self) moved
      apply ih
      · intro rg' member
        exact (shrinks.bounded rg' member).1
      · intro rg' member later inside
        obtain ⟨rg, old, bound⟩ := (shrinks.bounded rg' member).2
        have := no_wrap rg old later (List.mem_cons_of_mem _ inside)
        omega
      · rw [apart_iff] at apart ⊢
        intro b
        exact (shrinks.covers b).trans (apart b)

/-- Two areas, one live symbol, and a region of the second area on the first one's list. -/
def twoAreas : Vmm where
  mmap := [⟨0, 0, 1024, [⟨0, 0, 200⟩, ⟨1, 2000, 2100⟩]⟩, ⟨1, 4096, 2000, [⟨1, 3000, 4096⟩]⟩]
  symrgtbl := (Vector.replicate 30 ⟨-1, 0, 0⟩).set 5 ⟨0, 300, 400⟩

theorem twoAreas_regions : twoAreas.regions =
    [⟨0, 300, 400⟩, ⟨0, 0, 200⟩, ⟨1, 2000, 2100⟩, ⟨1, 3000, 4096⟩] := by
  decide +kernel

theorem twoAreas_apart : twoAreas.Apart := by
  rw [Apart, twoAreas_regions]
  simp only [List.pairwise_cons, List.forall_mem_cons, List.not_mem_nil, false_imp_iff,
    implies_true, and_true, List.Pairwise.nil]
  refine ⟨⟨?_, ?_, ?_⟩, ⟨?_, ?_⟩, ?_⟩
  · exact (VmRg.bytes_disjoint (by decide)).symm
  all_goals exact VmRg.bytes_disjoint (by decide)

/-- Two pieces of 100 bytes are cut and the second is kept; the symbol is freed twice. -/
theorem regions_apart_twoAreas : Always (regionStep 4096) Apart twoAreas
    [.alloc 0 1 100, .alloc 1 2 1000, .free 5, .free 5, .alloc 0 1 50] :=
  regions_apart (by decide +kernel) (by decide +kernel) twoAreas_apart

end Vmm
end OsSim
