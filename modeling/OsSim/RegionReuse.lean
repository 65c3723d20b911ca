import OsSim.AllocContract

/-! What __free makes of a region. It enlists every region on the list of the first area, so
a region can be used again in its own area only if that is the first one. -/
namespace OsSim

namespace Vmm

/-- The regions of a process that are apart from one another, and the free ones on the list of
the area they have the number of. -/
structure Separate (vm : Vmm) : Prop where
  areas : vm.mmap.length = 2
  own : ∀ vmaid : Fin 2, ∀ rg ∈ vm.freeList vmaid.val, rg.vmaid = vmaid.val
  wellFormed : ∀ rg ∈ vm.regions, rg.WellFormed (2 ^ 31)
  apart : vm.Apart

/-- After the symbol is freed the list of its area has gained the region, the other list has
not changed, and the next call that asks for no more bytes finds them on the list. -/
def Reusable (vm : Vmm) (i : Fin pagingMaxSymtblSz) (vmaid : Fin 2) : Prop :=
  ∃ vm', vm.free i.val = .ok (true, vm') ∧
    (vm'.freeList vmaid.val).Perm (vm.symrg i :: vm.freeList vmaid.val) ∧
    (∀ other : Fin 2, other ≠ vmaid → vm'.freeList other.val = vm.freeList other.val) ∧
    ∀ (vmemsz : BitVec 32) (rgid : Fin pagingMaxSymtblSz) (size : BitVec 32), 0 < size.toInt →
      size.toNat ≤ (vm.symrg i).len →
      ∃ newrg found, vm'.getFreeVmrgArea vmaid.val size ⟨vmaid.val, 0, 0⟩ =
          .ok (true, newrg, found) ∧
        vm'.alloc vmemsz vmaid.val rgid.val size = .ok (true, found.setSymrg rgid newrg)

/-- A region at the front of its own area's list is found for any request up to its size. -/
theorem search_front (between : Vmm) {vmaid : Int} {vma : VmArea} {rg : VmRg} {list : List VmRg}
    (area : between.getVmaByNum vmaid = some vma) (front : vma.vmFreergList = rg :: list)
    (own : rg.vmaid = vmaid) {size : BitVec 32} (pos : 0 < size.toInt)
    (room : size.toNat ≤ rg.len) (wf : ∀ r ∈ vma.vmFreergList, r.WellFormed (2 ^ 31)) :
    ∃ newrg found, between.getFreeVmrgArea vmaid size ⟨vmaid, 0, 0⟩ =
      .ok (true, newrg, found) := by
  obtain ⟨-, -, small⟩ := signExtend_toNat pos
  obtain ⟨visited, newrg, found, search, searched⟩ := getFreeVmrgArea_spec pos area
    fun r member => ⟨(wf r member).ordered, by have := (wf r member).no_wrap; omega⟩
  refine ⟨newrg, found, ?_⟩
  rw [search, searched.found_iff, front, supplier_visited (.inr own), if_pos room]
  simp

section Free
variable {vm : Vmm} {i : Fin pagingMaxSymtblSz} {vmaid : Fin 2} {vma : VmArea}

theorem freeList_enlisted (vm : Vmm) (list : List VmRg) :
    (vm.setFreergList 0 list).freeList 1 = vm.freeList 1 := by
  have other : (vm.setFreergList 0 list).getVmaByNum 1 = vm.getVmaByNum 1 := by
    simp [getVmaByNum, setFreergList]
  rw [freeList, other, freeList]

theorem free_live (area : vm.getVmaByNum 0 = some vma) (live : (vm.symrg i).vmaid = vmaid.val)
    (bytes : 0 < (vm.symrg i).len) : vm.free i.val = .ok (true,
      (vm.setFreergList 0 (vm.symrg i :: vm.freeList 0)).setSymrg i ⟨-1, 0, 0⟩) := by
  have known : ¬ ((vm.symrg i).vmaid < 0 ∨ 1 < (vm.symrg i).vmaid) := by omega
  have enlisted : vm.enlistVmFreergList (vm.symrg i) =
      .ok (vm.setFreergList 0 (vm.symrg i :: vm.freeList 0)) := by
    have some_bytes : ¬ (vm.symrg i).rgEnd ≤ (vm.symrg i).rgStart := by
      rw [VmRg.len] at bytes
      rw [BitVec.le_def]
      omega
    obtain ⟨rest, areas⟩ : ∃ rest, vm.mmap = vma :: rest := by
      cases areas : vm.mmap with
      | nil =>
          rw [getVmaByNum, areas] at area
          cases area
      | cons first rest =>
          rw [getVmaByNum, areas] at area
          exact ⟨rest, by rw [Option.some.inj area]⟩
    rw [freeList_eq area, enlistVmFreergList, areas, setFreergList, areas]
    dsimp only
    rw [if_neg some_bytes]
    rfl
  rw [free, symIndex_val]
  dsimp only
  rw [if_neg known, enlisted]
  rfl

/-- A freed region can be used again in its own area exactly if that is the first one. -/
theorem reusable_iff (separate : vm.Separate) (live : (vm.symrg i).vmaid = vmaid.val)
    (bytes : 0 < (vm.symrg i).len) : vm.Reusable i vmaid ↔ vmaid = 0 := by
  obtain ⟨vma, rest, areas⟩ : ∃ vma rest, vm.mmap = vma :: rest :=
    List.exists_cons_of_length_eq_add_one separate.areas
  have area : vm.getVmaByNum 0 = some vma := by
    rw [getVmaByNum, areas]
    rfl
  have freed := free_live area live bytes
  constructor
  · rintro ⟨vm', returned, gained, -⟩
    obtain ⟨-, rfl⟩ := Prod.mk.inj (Except.ok.inj (freed.symm.trans returned))
    by_contra second
    obtain rfl : vmaid = 1 := by omega
    have same := freeList_enlisted vm (vm.symrg i :: vm.freeList 0)
    have longer := gained.length_eq
    change ((vm.setFreergList 0 _).freeList 1).length = _ at longer
    rw [same, List.length_cons] at longer
    exact absurd longer (Nat.lt_succ_self _).ne
  · rintro rfl
    have list := freeList_eq area
    have listed := getVmaByNum_setFreergList area (vm.symrg i :: vm.freeList 0)
    refine ⟨_, freed, ?_, ?_, ?_⟩
    · exact (freeList_eq listed).symm ▸ List.Perm.refl _
    · intro other different
      obtain rfl : other = 1 := by omega
      exact freeList_enlisted vm _
    · intro vmemsz rgid size pos room
      have wf : ∀ r ∈ vm.symrg i :: vm.freeList 0, r.WellFormed (2 ^ 31) := by
        refine List.forall_mem_cons.mpr ⟨separate.wellFormed _ ?_, fun r member => ?_⟩
        · exact mem_regions.mpr (.inl ⟨i, rfl, by rw [live]; decide⟩)
        · exact separate.wellFormed r (mem_regions_listed area (list ▸ member))
      obtain ⟨newrg, found, search⟩ := search_front
        ((vm.setFreergList 0 (vm.symrg i :: vm.freeList 0)).setSymrg i ⟨-1, 0, 0⟩)
        listed rfl live pos room wf
      refine ⟨newrg, found, search, (alloc_found pos search).trans ?_⟩
      rw [storeSymrg, symIndex_val]
      rfl

end Free

/-- Two areas with a free region and a live symbol each. -/
def sorted : Vmm where
  mmap := [⟨0, 0, 1024, [⟨0, 0, 200⟩]⟩, ⟨1, 4096, 2000, [⟨1, 3000, 4096⟩]⟩]
  symrgtbl := ((Vector.replicate 30 ⟨-1, 0, 0⟩).setIfInBounds 5 ⟨0, 300, 400⟩).setIfInBounds 6
    ⟨1, 2000, 2100⟩

theorem sorted_regions : sorted.regions =
    [⟨0, 300, 400⟩, ⟨1, 2000, 2100⟩, ⟨0, 0, 200⟩, ⟨1, 3000, 4096⟩] := by
  decide +kernel

theorem sorted_separate : sorted.Separate where
  areas := rfl
  own := by decide +kernel
  wellFormed := by
    have wf : ∀ rg ∈ sorted.regions, rg.rgStart.toNat ≤ rg.rgEnd.toNat ∧
        rg.rgEnd.toNat + 2 ^ 31 < 2 ^ 64 := by decide +kernel
    exact fun rg member => ⟨(wf rg member).1, (wf rg member).2⟩
  apart := by
    rw [Apart, sorted_regions]
    simp only [List.pairwise_cons, List.forall_mem_cons, List.not_mem_nil, false_imp_iff,
      implies_true, and_true, List.Pairwise.nil]
    refine ⟨⟨?_, ?_, ?_⟩, ⟨?_, ?_⟩, ?_⟩
    · exact VmRg.bytes_disjoint (by decide)
    · exact (VmRg.bytes_disjoint (by decide)).symm
    · exact VmRg.bytes_disjoint (by decide)
    · exact (VmRg.bytes_disjoint (by decide)).symm
    · exact VmRg.bytes_disjoint (by decide)
    · exact VmRg.bytes_disjoint (by decide)

theorem reusable_iff_sorted : sorted.Reusable 5 0 :=
  (reusable_iff sorted_separate rfl (by decide +kernel)).mpr rfl

/-- A heap region goes to the list of the data area. -/
theorem heap_region_lost : ¬ ∀ (vm : Vmm) (i : Fin pagingMaxSymtblSz) (vmaid : Fin 2),
    vm.Separate → (vm.symrg i).vmaid = vmaid.val → 0 < (vm.symrg i).len →
      vm.Reusable i vmaid := by
  intro claim
  obtain ⟨vm', returned, gained, -⟩ := claim sorted 6 1 sorted_separate rfl (by decide +kernel)
  have freed : sorted.free 6 = .ok (true, (sorted.setFreergList 0
      [⟨1, 2000, 2100⟩, ⟨0, 0, 200⟩]).setSymrg 6 ⟨-1, 0, 0⟩) := by decide +kernel
  obtain ⟨-, rfl⟩ := Prod.mk.inj (Except.ok.inj (freed.symm.trans returned))
  cases gained.length_eq

end Vmm
end OsSim
