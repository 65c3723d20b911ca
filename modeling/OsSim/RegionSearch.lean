import OsSim.AllocContract

/-! The search of get_free_vmrg_area by itself: what it finds, and what becomes of the free
list. The region it returns is sound, and it misses none; but a piece it cuts and does not
return is lost, and a region that takes the place of one used up takes on its number. -/
namespace OsSim
open Cover

namespace VmRg

/-- A region in order within the bounds of another. -/
structure Inside (r outer : VmRg) : Prop where
  low : outer.rgStart.toNat ≤ r.rgStart.toNat
  ordered : r.rgStart.toNat ≤ r.rgEnd.toNat
  high : r.rgEnd.toNat ≤ outer.rgEnd.toNat

theorem Inside.bytes_subset {r outer : VmRg} (inside : r.Inside outer) : r.bytes ⊆ outer.bytes :=
  Set.Ico_subset_Ico inside.low inside.high

theorem Inside.refl {r : VmRg} {size : Nat} (wf : r.WellFormed size) : r.Inside r :=
  ⟨le_rfl, wf.ordered, le_rfl⟩

/-- The bytes of a region, each with the number that the region carries. -/
def tagged (r : VmRg) : Set (Int × Nat) := {x | x.1 = r.vmaid ∧ x.2 ∈ r.bytes}

end VmRg

section Supplier
variable {vmaid : Int} {size : Nat} {list : List VmRg}

/-- There is no supplier where none of the regions at the front that carry the number, one
taken over included, has room. -/
theorem supplier_none_iff {takenOver : Bool} : supplier vmaid size takenOver list = none ↔
    ∀ rg ∈ (takeOver vmaid takenOver list).takeWhile (·.vmaid = vmaid), rg.len < size := by
  induction list generalizing takenOver with
  | nil => cases takenOver <;> simp [takeOver, supplier]
  | cons rg rest ih =>
      by_cases visited : takenOver = true ∨ rg.vmaid = vmaid
      · rw [supplier_visited visited, takeOver_visited rg rest visited, Option.or_eq_none_iff,
          List.takeWhile_cons_of_pos (by simp), List.forall_mem_cons]
        by_cases room : size ≤ rg.len
        · exact iff_of_false (fun h => by simp [room] at h) fun h => absurd room (not_le.mpr h.1)
        · have skipped : decide (0 < rg.len ∧ size ∣ rg.len) = false := by
            rw [decide_eq_false_iff_not]
            rintro ⟨some_bytes, divides⟩
            exact room (Nat.le_of_dvd some_bytes divides)
          rw [skipped, ih, takeOver_false, if_neg room, and_comm]
          exact and_congr_left fun _ => iff_of_true rfl (not_le.mp room)
      · obtain ⟨free, number⟩ := not_or.mp visited
        obtain rfl : takenOver = false := by simpa using free
        rw [takeOver_false, List.takeWhile_cons_of_neg (by simpa using number)]
        exact iff_of_true (if_neg visited) (by simp)

theorem supplier_isSome_iff : (supplier vmaid size false list).isSome = true ↔
    ∃ rg ∈ list.takeWhile (·.vmaid = vmaid), size ≤ rg.len := by
  rw [Option.isSome_iff_ne_none, Ne, supplier_none_iff, takeOver_false]
  simp only [not_forall, not_lt, exists_prop]

end Supplier

namespace Vmm

/-- What a walk leaves on the list lies inside what was there. -/
theorem walk_inside {vmaid : Int} {size : BitVec 64} {n : Nat} {list list' : List VmRg}
    {newrg newrg' : VmRg} (wf : ∀ rg ∈ list, rg.WellFormed size.toNat)
    (h : walk vmaid size n list newrg = some (newrg', list')) :
    ∀ rg' ∈ list', ∃ rg ∈ list, rg'.Inside rg := by
  revert wf
  refine walk_induction (P := fun list _ _ list' => (∀ rg ∈ list, rg.WellFormed size.toNat) →
    ∀ rg' ∈ list', ∃ rg ∈ list, rg'.Inside rg) ?_ ?_ ?_ ?_ ?_ ?_ h
  · exact fun _ _ _ member => absurd member List.not_mem_nil
  · exact fun _ _ _ _ wf rg member => ⟨rg, member, .refl (wf rg member)⟩
  · intro rgit rest _ _ list' _ _ later wf rg' member
    rcases List.mem_cons.mp member with rfl | member
    · exact ⟨rg', List.mem_cons_self, .refl (wf rg' List.mem_cons_self)⟩
    · obtain ⟨rg, old, inside⟩ := later (List.forall_mem_cons.mp wf).2 rg' member
      exact ⟨rg, List.mem_cons_of_mem _ old, inside⟩
  · intro rgit rest _ _ list' _ leaves later wf rg' member
    obtain ⟨here, others⟩ := List.forall_mem_cons.mp wf
    have start := here.add_toNat
    have ordered := BitVec.lt_def.mp leaves
    obtain ⟨rg, old, inside⟩ :=
      later (List.forall_mem_cons.mpr ⟨⟨ordered.le, here.no_wrap⟩, others⟩) rg' member
    rcases List.mem_cons.mp old with rfl | old
    · exact ⟨rgit, List.mem_cons_self, by have := inside.low; dsimp only at this; omega,
        inside.ordered, inside.high⟩
    · exact ⟨rg, List.mem_cons_of_mem _ old, inside⟩
  · intro rgit next rest _ _ list' _ later wf rg' member
    obtain ⟨-, others⟩ := List.forall_mem_cons.mp wf
    obtain ⟨there, others⟩ := List.forall_mem_cons.mp others
    obtain ⟨rg, old, inside⟩ :=
      later (List.forall_mem_cons.mpr ⟨⟨there.ordered, there.no_wrap⟩, others⟩) rg' member
    rcases List.mem_cons.mp old with rfl | old
    · exact ⟨next, by simp, inside.low, inside.ordered, inside.high⟩
    · exact ⟨rg, by simp [old], inside⟩
  · intro rgit _ _ list' _ later wf rg' member
    have here := wf rgit List.mem_cons_self
    obtain ⟨rg, old, inside⟩ := later (by simpa using ⟨le_rfl, here.no_wrap⟩) rg' member
    obtain rfl := List.mem_singleton.mp old
    exact ⟨rgit, List.mem_cons_self, here.ordered.trans inside.low, inside.ordered, inside.high⟩

/-- What a search of a free list promises. -/
structure SearchSound (vm : Vmm) (vmaid : Int) (size : Nat) (list : List VmRg) (found : Bool)
    (newrg : VmRg) (vm' : Vmm) : Prop where
  complete : found = true ↔ ∃ rg ∈ list.takeWhile (·.vmaid = vmaid), size ≤ rg.len
  length : found = true → newrg.rgEnd.toNat = newrg.rgStart.toNat + size
  inside : found = true → ∃ rg ∈ list, newrg.Inside rg
  left : found = true → ∃ list', vm' = vm.setFreergList vmaid list' ∧ ∀ rg' ∈ list',
    Disjoint newrg.bytes rg'.bytes ∧ ∃ rg ∈ list, rg'.Inside rg
  unchanged : found = false → vm' = vm

section Search
variable {vm : Vmm} {vmaid : Int} {size : BitVec 32} {vma : VmArea}

/-- get_free_vmrg_area ends and finds a region exactly if one of those it comes to has room;
what it returns is of the size asked for and apart from all that stays on the list. -/
theorem search_sound (area : vm.getVmaByNum vmaid = some vma) (pos : 0 < size.toInt)
    (wf : ∀ rg ∈ vma.vmFreergList, rg.WellFormed size.toNat)
    (apart : vma.vmFreergList.Pairwise fun a b => Disjoint a.bytes b.bytes) (newrg : VmRg) :
    ∃ found newrg' vm', vm.getFreeVmrgArea vmaid size newrg = .ok (found, newrg', vm') ∧
      vm.SearchSound vmaid size.toNat vma.vmFreergList found newrg' vm' := by
  obtain ⟨piece, list', walks, walked, newrg', search, same⟩ :=
    getFreeVmrgArea_walks pos area wf newrg
  obtain ⟨wide, -, -⟩ := signExtend_toNat pos
  refine ⟨_, newrg', _, search, supplier_isSome_iff, ?_, ?_, ?_, ?_⟩
  · intro found
    obtain ⟨rg, supplied⟩ := Option.isSome_iff_exists.mp found
    rw [same found]
    exact (walked.found rg supplied).2.2
  · intro found
    obtain ⟨rg, supplied⟩ := Option.isSome_iff_exists.mp found
    obtain ⟨low, high, length⟩ := walked.found rg supplied
    rw [same found]
    exact ⟨rg, (supplier_mem supplied).1, low, by omega, high⟩
  · intro found
    refine ⟨list', rfl, fun rg' member => ⟨?_, walk_inside (wide ▸ wf) walks rg' member⟩⟩
    apply Set.disjoint_left.mpr
    intro b here there
    rw [same found] at here
    -- no byte is covered twice before, so none is after
    have once := (pairwise_disjoint_iff VmRg.bytes _).mp apart b
    have covers := walked.covers b
    have returned := (cover_pos VmRg.bytes).mpr ⟨piece, List.mem_singleton_self piece, here⟩
    have listed := (cover_pos VmRg.bytes).mpr ⟨rg', member, there⟩
    rw [cover_probe] at covers
    omega
  · intro missed
    obtain ⟨-, rfl⟩ := walked.not_found (by simpa using missed)
    rw [takeOver_false, setFreergList_same area]

end Search

theorem twoAreas_wf {size : Nat} (small : size < 2 ^ 31) :
    ∀ rg ∈ [(⟨0, 0, 200⟩ : VmRg), ⟨1, 2000, 2100⟩], rg.WellFormed size := by
  intro rg member
  rcases List.mem_pair.mp member with rfl | rfl
  · exact ⟨by decide, by change 200 + size < _; omega⟩
  · exact ⟨by decide, by change 2100 + size < _; omega⟩

theorem twoAreas_list_apart : [(⟨0, 0, 200⟩ : VmRg), ⟨1, 2000, 2100⟩].Pairwise
    fun a b => Disjoint a.bytes b.bytes :=
  List.pairwise_pair.mpr (VmRg.bytes_disjoint (by decide))

/-- A search for 60 bytes cuts three pieces off the first region, and returns the last. -/
theorem search_sound_twoAreas :
    ∃ found newrg' vm', twoAreas.getFreeVmrgArea 0 60 ⟨0, 0, 0⟩ = .ok (found, newrg', vm') ∧
      twoAreas.SearchSound 0 60 [⟨0, 0, 200⟩, ⟨1, 2000, 2100⟩] found newrg' vm' :=
  search_sound (show twoAreas.getVmaByNum 0 =
    some ⟨0, 0, 1024, [⟨0, 0, 200⟩, ⟨1, 2000, 2100⟩]⟩ from rfl) (by decide)
    (twoAreas_wf (by decide)) twoAreas_list_apart ⟨0, 0, 0⟩

end Vmm
end OsSim
