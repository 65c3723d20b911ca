import OsSim.RegionSearch

/-! When carving a free region conserves memory. The walk goes on after it has found a piece,
so the free bytes are what they were less the piece returned exactly if nothing else is cut,
and no region with another number takes the place of one used up. -/
namespace OsSim
open Cover

/-- What the walk has before it once it has cut a piece off a region. -/
def remainder (size : BitVec 64) (rg : VmRg) (after : List VmRg) : List VmRg :=
  if size.toNat < rg.len then ⟨rg.vmaid, rg.rgStart + size, rg.rgEnd⟩ :: after else after

theorem length_add_weight (before list : List VmRg) :
    before.length + weight list ≤ weight (before ++ list) := by
  induction before with
  | nil => rw [List.length_nil, Nat.zero_add, List.nil_append]
  | cons r before ih =>
      simp only [weight, List.length_cons, List.cons_append, List.map_cons, List.sum_cons] at ih ⊢
      omega

theorem takeOver_bytes {vmaid : Int} {takenOver : Bool} {l : List VmRg} {r : VmRg}
    (h : r ∈ takeOver vmaid takenOver l) : ∃ r' ∈ l, r.bytes = r'.bytes := by
  cases takenOver with
  | false => exact ⟨r, by rwa [takeOver_false] at h, rfl⟩
  | true =>
      cases l with
      | nil => cases h
      | cons first rest =>
          rcases List.mem_cons.mp h with rfl | later
          · exact ⟨first, List.mem_cons_self, rfl⟩
          · exact ⟨r, List.mem_cons_of_mem _ later, rfl⟩

/-- Taking over a region leaves its bytes their number if that is the same one. -/
theorem takeOver_tagged_iff (vmaid : Int) {l : List VmRg}
    (wf : ∀ r ∈ l, r.rgStart.toNat ≤ r.rgEnd.toNat) :
    (∀ x, cover VmRg.tagged l x = cover VmRg.tagged (takeOver vmaid true l) x) ↔
      ∀ next ∈ l.head?, next.vmaid = vmaid ∨ next.len = 0 := by
  cases l with
  | nil => simp [takeOver]
  | cons next rest =>
      rw [show takeOver vmaid true (next :: rest) = { next with vmaid } :: rest from rfl]
      have ordered := wf next List.mem_cons_self
      simp only [cover_cons, Nat.add_left_cancel_iff, List.head?_cons, Option.mem_some_iff,
        forall_eq']
      constructor
      · intro same
        by_contra other
        obtain ⟨foreign, some_bytes⟩ := not_or.mp other
        rw [VmRg.len] at some_bytes
        have first := same (next.vmaid, next.rgStart.toNat)
        have here : (next.vmaid, next.rgStart.toNat) ∈ next.tagged := ⟨rfl, le_rfl, by omega⟩
        rw [if_pos here, if_neg fun h => foreign h.1] at first
        cases first
      · rintro (own | empty) x
        · rw [← own]
        · have no_bytes : next.bytes = ∅ := by
            rw [VmRg.len] at empty
            exact Set.Ico_eq_empty (by omega)
          have dummy : ({ next with vmaid } : VmRg).bytes = ∅ := no_bytes
          simp [VmRg.tagged, no_bytes, dummy]

namespace Vmm
variable {vmaid : Int} {size : BitVec 64}

/-- The walk passes over regions of the number that have no room. -/
theorem walk_before {before : List VmRg} (passed : ∀ r ∈ before, r.vmaid = vmaid ∧
    ¬ r.rgStart + size ≤ r.rgEnd) (n : Nat) (tail : List VmRg) (newrg : VmRg) :
    walk vmaid size (before.length + n) (before ++ tail) newrg =
      (walk vmaid size n tail newrg).map fun r => (r.1, before ++ r.2) := by
  induction before with
  | nil => simp
  | cons r before ih =>
      obtain ⟨⟨own, small⟩, others⟩ := List.forall_mem_cons.mp passed
      rw [List.length_cons, Nat.add_right_comm, List.cons_append, walk_skip own small, ih others,
        Option.map_map]
      rfl

variable {rg newrg newrg' : VmRg} {after tail' : List VmRg}

/-- From a region with room the walk goes on with what remains, the piece in hand. A region
of no bytes that stays at the end of the list is left out of the account. -/
theorem walk_cut (pos : 0 < size.toNat) (wf : ∀ r ∈ rg :: after, r.WellFormed size.toNat)
    (own : rg.vmaid = vmaid) (room : size.toNat ≤ rg.len) {n : Nat}
    (enough : weight (rg :: after) < n + 1)
    (h : walk vmaid size (n + 1) (rg :: after) newrg = some (newrg', tail')) :
    ∃ rest, Walked vmaid size.toNat (decide (rg.len = size.toNat)) (remainder size rg after)
        ⟨newrg.vmaid, rg.rgStart, rg.rgStart + size⟩ newrg' rest ∧
      (∀ r ∈ rest, ∃ r' ∈ remainder size rg after, r.bytes ⊆ r'.bytes) ∧
      ∀ x, cover VmRg.tagged tail' x = cover VmRg.tagged rest x := by
  obtain ⟨here, later⟩ := List.forall_mem_cons.mp wf
  have fits := here.fits_iff.mpr room
  simp only [weight, List.map_cons, List.sum_cons] at enough
  -- the walk from here on, as the general lemmas have it
  have goes_on : ∀ (takenOver : Bool) (rem : List VmRg), weight rem < n →
      (∀ r ∈ rem, r.WellFormed size.toNat) →
      walk vmaid size n (takeOver vmaid takenOver rem)
        ⟨newrg.vmaid, rg.rgStart, rg.rgStart + size⟩ = some (newrg', tail') →
      Walked vmaid size.toNat takenOver rem ⟨newrg.vmaid, rg.rgStart, rg.rgStart + size⟩
        newrg' tail' ∧ ∀ r ∈ tail', ∃ r' ∈ rem, r.bytes ⊆ r'.bytes := by
    intro takenOver rem few wf walks
    obtain ⟨piece, left, same, walked⟩ := @walk_spec vmaid size pos n rem takenOver
      ⟨newrg.vmaid, rg.rgStart, rg.rgStart + size⟩ few wf
    obtain ⟨rfl, rfl⟩ := Prod.mk.inj (Option.some.inj (same.symm.trans walks))
    refine ⟨walked, ?_⟩
    intro r member
    have wf' : ∀ r ∈ takeOver vmaid takenOver rem, r.WellFormed size.toNat := by
      cases takenOver with
      | false => simpa using wf
      | true =>
          cases rem with
          | nil => exact wf
          | cons first rest =>
              obtain ⟨first_wf, rest_wf⟩ := List.forall_mem_cons.mp wf
              exact List.forall_mem_cons.mpr ⟨⟨first_wf.ordered, first_wf.no_wrap⟩, rest_wf⟩
    obtain ⟨r₁, old, inside⟩ := walk_inside wf' walks r member
    obtain ⟨r₂, there, bytes⟩ := takeOver_bytes old
    exact ⟨r₂, there, bytes ▸ inside.bytes_subset⟩
  by_cases leaves : size.toNat < rg.len
  · have start := here.add_toNat
    have ordered := BitVec.lt_def.mp (here.leaves_iff.mpr leaves)
    rw [walk_leaves own fits (here.leaves_iff.mpr leaves)] at h
    rw [remainder, if_pos leaves, decide_eq_false leaves.ne']
    obtain ⟨walked, inside⟩ := goes_on false
      (⟨rg.vmaid, rg.rgStart + size, rg.rgEnd⟩ :: after)
      (by
        simp only [weight, List.map_cons, List.sum_cons, VmRg.len] at enough ⊢
        omega)
      (List.forall_mem_cons.mpr ⟨⟨ordered.le, here.no_wrap⟩, later⟩) h
    exact ⟨tail', walked, inside, fun _ => rfl⟩
  · have all : rg.len = size.toNat := by omega
    rw [remainder, if_neg leaves, decide_eq_true all]
    cases after with
    | nil =>
        rw [walk_end own fits (mt here.leaves_iff.mp leaves)] at h
        obtain ⟨more, rfl⟩ : ∃ more, n = more + 2 := ⟨n - 2, by
          simp only [List.map_nil, List.sum_nil] at enough
          omega⟩
        rw [own, walk_last here pos] at h
        obtain ⟨rfl, rfl⟩ := Prod.mk.inj (Option.some.inj h)
        refine ⟨[], ⟨rfl, fun _ => ⟨rfl, rfl⟩, ?_, fun _ => le_rfl, ?_⟩, ?_, ?_⟩
        · exact fun _ none => by cases none
        · exact fun _ member => absurd member List.not_mem_nil
        · exact fun _ member => absurd member List.not_mem_nil
        · intro x
          refine cover_empty _ ?_ x
          simp [VmRg.tagged, VmRg.bytes]
    | cons next rest =>
        rw [walk_next own fits (mt here.leaves_iff.mp leaves), own] at h
        obtain ⟨walked, inside⟩ := goes_on true (next :: rest)
          (by simp only [weight, List.map_cons, List.sum_cons] at enough ⊢; omega) later h
        exact ⟨tail', walked, inside, fun _ => rfl⟩

end Vmm

/-- The first region with room that the walk comes to, and what is on either side of it. -/
structure FirstRoom (vmaid : Int) (size : Nat) (list before : List VmRg) (rg : VmRg)
    (after : List VmRg) : Prop where
  split : list = before ++ rg :: after
  passed : ∀ r ∈ before, r.vmaid = vmaid ∧ r.len < size
  own : rg.vmaid = vmaid
  room : size ≤ rg.len

/-- Nothing has room once a piece is cut off the region, and if that was the whole of it, the
next region, which takes its place, has the same number or no bytes. -/
structure CutOnce (vmaid : Int) (size : Nat) (rg : VmRg) (after : List VmRg) : Prop where
  no_second : rg.len < 2 * size
  none_later : ∀ r ∈ (takeOver vmaid (decide (rg.len = size)) after).takeWhile (·.vmaid = vmaid),
    r.len < size
  number_kept : rg.len = size → ∀ next ∈ after.head?, next.vmaid = vmaid ∨ next.len = 0

theorem exists_firstRoom {vmaid : Int} {size : Nat} {list : List VmRg}
    (h : ∃ rg ∈ list.takeWhile (·.vmaid = vmaid), size ≤ rg.len) :
    ∃ before rg after, FirstRoom vmaid size list before rg after := by
  obtain ⟨found, member, room⟩ := h
  induction list with
  | nil => cases member
  | cons r rest ih =>
      by_cases own : r.vmaid = vmaid
      · by_cases here : size ≤ r.len
        · exact ⟨[], r, rest, rfl, fun _ none => absurd none List.not_mem_nil, own, here⟩
        · rw [List.takeWhile_cons_of_pos (by simpa using own)] at member
          rcases List.mem_cons.mp member with rfl | later
          · exact absurd room here
          · obtain ⟨before, rg, after, first⟩ := ih later
            refine ⟨r :: before, rg, after, ?_, ?_, first.own, first.room⟩
            · rw [first.split, List.cons_append]
            · exact List.forall_mem_cons.mpr ⟨⟨own, not_le.mp here⟩, first.passed⟩
      · rw [List.takeWhile_cons_of_neg (by simpa using own)] at member
        cases member

section Cut
variable {vmaid : Int} {size : BitVec 64} {rg : VmRg} {after : List VmRg}

theorem start_not_remainder (wf : rg.WellFormed size.toNat) (pos : 0 < size.toNat)
    (room : size.toNat ≤ rg.len)
    (apart : (rg :: after).Pairwise fun a b => Disjoint a.bytes b.bytes) :
    ∀ r ∈ remainder size rg after, rg.rgStart.toNat ∉ r.bytes := by
  have start := wf.add_toNat
  rw [VmRg.len] at room
  intro r member here
  have low := here.1
  have elsewhere : r ∈ after → False := fun other =>
    Set.disjoint_left.mp (List.rel_of_pairwise_cons apart other) ⟨le_rfl, by omega⟩ here
  unfold remainder at member
  split at member
  · rcases List.mem_cons.mp member with rfl | other
    · dsimp only at low
      omega
    · exact elsewhere other
  · exact elsewhere member

theorem supplier_remainder_iff (after : List VmRg) (wf : rg.WellFormed size.toNat)
    (own : rg.vmaid = vmaid) (room : size.toNat ≤ rg.len) (pos : 0 < size.toNat) :
    supplier vmaid size.toNat (decide (rg.len = size.toNat)) (remainder size rg after) = none ↔
      rg.len < 2 * size.toNat ∧ ∀ r ∈ (takeOver vmaid (decide (rg.len = size.toNat))
        after).takeWhile (·.vmaid = vmaid), r.len < size.toNat := by
  rw [supplier_none_iff, remainder]
  by_cases leaves : size.toNat < rg.len
  · have start := wf.add_toNat
    have length : VmRg.len ⟨rg.vmaid, rg.rgStart + size, rg.rgEnd⟩ = rg.len - size.toNat := by
      change rg.rgEnd.toNat - (rg.rgStart + size).toNat =
        rg.rgEnd.toNat - rg.rgStart.toNat - size.toNat
      omega
    rw [if_pos leaves, decide_eq_false leaves.ne', takeOver_false, takeOver_false,
      List.takeWhile_cons_of_pos (by simpa using own), List.forall_mem_cons, length]
    refine and_congr_left fun _ => ?_
    omega
  · rw [if_neg leaves]
    have no_second : rg.len < 2 * size.toNat := by omega
    exact (and_iff_right no_second).symm

theorem cover_cut (wf : rg.WellFormed size.toNat) (leaves : size.toNat < rg.len) (x : Int × Nat) :
    cover VmRg.tagged [⟨rg.vmaid, rg.rgStart + size, rg.rgEnd⟩] x +
      cover VmRg.tagged [⟨rg.vmaid, rg.rgStart, rg.rgStart + size⟩] x =
        cover VmRg.tagged [rg] x := by
  have start := wf.add_toNat
  rw [VmRg.len] at leaves
  apply cover_split_eq
  · exact Set.disjoint_left.mpr fun x high low =>
      absurd low.2.2 (not_lt.mpr high.2.1)
  · ext ⟨number, b⟩
    simp only [VmRg.tagged, VmRg.bytes, Set.mem_union, Set.mem_ofPred_eq, Set.mem_Ico, start]
    omega

/-- The bytes of a region are the piece and what the walk leaves of the rest, where it cuts no
further piece and no number changes. -/
theorem Walked.cutOnce_iff {piece newrg : VmRg} {rest : List VmRg}
    (walked : Walked vmaid size.toNat (decide (rg.len = size.toNat)) (remainder size rg after)
      newrg piece rest)
    (first : newrg.rgStart = rg.rgStart ∧ newrg.rgEnd = rg.rgStart + size)
    (inside : ∀ r ∈ rest, ∃ r' ∈ remainder size rg after, r.bytes ⊆ r'.bytes)
    (wf : ∀ r ∈ rg :: after, r.WellFormed size.toNat) (pos : 0 < size.toNat)
    (apart : (rg :: after).Pairwise fun a b => Disjoint a.bytes b.bytes)
    (own : rg.vmaid = vmaid) (room : size.toNat ≤ rg.len) :
    (∀ x, cover VmRg.tagged (rg :: after) x = cover VmRg.tagged rest x +
        cover VmRg.tagged [⟨vmaid, piece.rgStart, piece.rgEnd⟩] x) ↔
      CutOnce vmaid size.toNat rg after := by
  obtain ⟨here, later⟩ := List.forall_mem_cons.mp wf
  have start := here.add_toNat
  have single := supplier_remainder_iff after here own room pos
  cases next : supplier vmaid size.toNat (decide (rg.len = size.toNat))
      (remainder size rg after) with
  | some again =>
      -- the byte that the first piece began with is gone
      refine iff_of_false ?_ fun once => ?_
      · intro conserved
        have lost := start_not_remainder here pos room apart
        obtain ⟨low, high, -⟩ := walked.found again next
        have counted := conserved (vmaid, rg.rgStart.toNat)
        have not_left : cover VmRg.tagged rest (vmaid, rg.rgStart.toNat) = 0 := by
          rw [cover_zero]
          intro r member there
          obtain ⟨r', old, within⟩ := inside r member
          exact lost r' old (within there.2)
        have not_returned : cover VmRg.tagged [⟨vmaid, piece.rgStart, piece.rgEnd⟩]
            (vmaid, rg.rgStart.toNat) = 0 := by
          rw [cover_zero]
          intro r member there
          obtain rfl := List.mem_singleton.mp member
          exact lost again (supplier_mem next).1 (Set.Ico_subset_Ico low high there.2)
        have at_start : (vmaid, rg.rgStart.toNat) ∈ rg.tagged := by
          rw [VmRg.len] at room
          exact ⟨own.symm, le_rfl, by dsimp only; omega⟩
        rw [not_left, not_returned, cover_cons, if_pos at_start] at counted
        cases counted
      · rw [single.mpr ⟨once.no_second, once.none_later⟩] at next
        cases next
  | none =>
      obtain ⟨no_second, none_later⟩ := single.mp next
      obtain ⟨rfl, rfl⟩ := walked.not_found next
      rw [first.1, first.2]
      by_cases leaves : size.toNat < rg.len
      · refine iff_of_true ?_ ⟨no_second, none_later, fun all => absurd all leaves.ne'⟩
        intro x
        have parts := cover_cut here leaves x
        rw [decide_eq_false leaves.ne', takeOver_false, remainder, if_pos leaves, ← own,
          cover_cons_append _ rg, cover_cons_append _ _ after]
        omega
      · have all : rg.len = size.toNat := by omega
        have whole : rg.rgStart + size = rg.rgEnd := by
          apply BitVec.eq_of_toNat_eq
          rw [VmRg.len] at all
          omega
        have moved := takeOver_tagged_iff vmaid fun r member => (later r member).ordered
        rw [decide_eq_true all, remainder, if_neg leaves, whole, ← own]
        simp only [cover_cons_append _ rg after, Nat.add_comm _ (cover VmRg.tagged [_] _),
          Nat.add_left_cancel_iff]
        rw [own, moved]
        exact ⟨fun kept => ⟨no_second, none_later, fun _ => kept⟩, fun once => once.number_kept all⟩

end Cut

namespace Vmm

/-- What a search that finds a region should have done: the region is part of one with the
number, and every other free byte stays on the list with the number that it had. -/
structure Conserves (vm : Vmm) (vmaid : Int) (size : Nat) (newrg : VmRg) (vm' : Vmm) : Prop where
  own : ∃ rg ∈ vm.freeList vmaid, rg.vmaid = vmaid ∧ newrg.Inside rg
  length : newrg.rgEnd.toNat = newrg.rgStart.toNat + size
  bytes : ∀ x, cover VmRg.tagged (vm.freeList vmaid) x = cover VmRg.tagged (vm'.freeList vmaid) x +
    cover VmRg.tagged [⟨vmaid, newrg.rgStart, newrg.rgEnd⟩] x

section Search
variable {vm vm' : Vmm} {vmaid : Int} {size : BitVec 32} {vma : VmArea} {newrg newrg' : VmRg}

/-- The search from the first region with room on. -/
theorem search_cut (area : vm.getVmaByNum vmaid = some vma) (pos : 0 < size.toInt)
    (wf : ∀ rg ∈ vma.vmFreergList, rg.WellFormed size.toNat)
    {before after : List VmRg} {rg : VmRg}
    (first : FirstRoom vmaid size.toNat vma.vmFreergList before rg after)
    (returned : vm.getFreeVmrgArea vmaid size newrg = .ok (true, newrg', vm')) :
    ∃ rest, Walked vmaid size.toNat (decide (rg.len = size.toNat))
        (remainder (size.signExtend 64) rg after)
        ⟨newrg.vmaid, rg.rgStart, rg.rgStart + size.signExtend 64⟩ newrg' rest ∧
      (∀ r ∈ rest, ∃ r' ∈ remainder (size.signExtend 64) rg after, r.bytes ⊆ r'.bytes) ∧
      ∀ x, cover VmRg.tagged (vm'.freeList vmaid) x =
        cover VmRg.tagged before x + cover VmRg.tagged rest x := by
  obtain ⟨wide, some_bytes, -⟩ := signExtend_toNat pos
  obtain ⟨piece, list', walks, -, found, search, same⟩ := getFreeVmrgArea_walks pos area wf newrg
  obtain ⟨visited, together⟩ := Prod.mk.inj (Except.ok.inj (search.symm.trans returned))
  obtain ⟨rfl, rfl⟩ := Prod.mk.inj together
  obtain rfl := same visited
  have enough := weight_lt_rounds vma.vmFreergList
  rw [← wide] at wf some_bytes ⊢
  have room := first.room
  rw [← wide] at room
  rw [freeList_setFreergList area]
  rw [first.split] at wf enough walks
  have wf_before : ∀ r ∈ before, r.WellFormed (size.signExtend 64).toNat := fun r member =>
    wf r (List.mem_append_left _ member)
  have counted := length_add_weight before (rg :: after)
  obtain ⟨n, rounds⟩ : ∃ n, Vmm.rounds (before ++ rg :: after) = before.length + (n + 1) :=
    ⟨Vmm.rounds (before ++ rg :: after) - before.length - 1, by omega⟩
  rw [rounds, walk_before] at walks
  · obtain ⟨⟨_, tail'⟩, later, pair⟩ := Option.map_eq_some_iff.mp walks
    obtain ⟨rfl, rfl⟩ := Prod.mk.inj pair
    obtain ⟨rest, walked, inside, covers⟩ := walk_cut some_bytes
      (fun r member => wf r (List.mem_append_right _ member)) first.own room (by omega) later
    refine ⟨rest, walked, inside, fun x => ?_⟩
    rw [cover_append, covers]
  · intro r member
    refine ⟨(first.passed r member).1, mt (wf_before r member).fits_iff.mp (not_le.mpr ?_)⟩
    rw [wide]
    exact (first.passed r member).2

/-- The account of a search from the first region with room on; those before it stay. -/
theorem search_account (area : vm.getVmaByNum vmaid = some vma) (pos : 0 < size.toInt)
    (wf : ∀ rg ∈ vma.vmFreergList, rg.WellFormed size.toNat)
    (apart : vma.vmFreergList.Pairwise fun a b => Disjoint a.bytes b.bytes)
    (returned : vm.getFreeVmrgArea vmaid size newrg = .ok (true, newrg', vm'))
    {before after : List VmRg} {rg : VmRg}
    (first : FirstRoom vmaid size.toNat vma.vmFreergList before rg after) :
    ((∀ x, cover VmRg.tagged (vm.freeList vmaid) x =
        cover VmRg.tagged (vm'.freeList vmaid) x +
          cover VmRg.tagged [⟨vmaid, newrg'.rgStart, newrg'.rgEnd⟩] x) ↔
        CutOnce vmaid size.toNat rg after) ∧
      (CutOnce vmaid size.toNat rg after → newrg'.rgStart = rg.rgStart ∧
        newrg'.rgEnd.toNat = rg.rgStart.toNat + size.toNat) := by
  obtain ⟨wide, some_bytes, -⟩ := signExtend_toNat pos
  obtain ⟨rest, walked, inside, covers⟩ := search_cut area pos wf first returned
  have room := first.room
  have here := wf rg (by simp [first.split])
  have later : ∀ r ∈ rg :: after, r.WellFormed size.toNat := fun r member =>
    wf r (first.split ▸ List.mem_append_right _ member)
  rw [first.split, List.pairwise_append] at apart
  rw [← wide] at walked room later here some_bytes ⊢
  constructor
  · rw [← walked.cutOnce_iff ⟨rfl, rfl⟩ inside later some_bytes apart.2.1 first.own room]
    refine forall_congr' fun x => ?_
    rw [covers, freeList_eq area, first.split, cover_append, Nat.add_assoc,
      Nat.add_left_cancel_iff]
  · intro once
    obtain ⟨rfl, -⟩ := walked.not_found
      ((supplier_remainder_iff after here first.own room some_bytes).mpr
        ⟨once.no_second, once.none_later⟩)
    exact ⟨rfl, here.add_toNat⟩

/-- The memory is conserved exactly where the first region with room yields one piece and all
that the walk comes to after it has no room, and where a region of another number does not
take the place of one used up. -/
theorem conserves_iff (area : vm.getVmaByNum vmaid = some vma) (pos : 0 < size.toInt)
    (wf : ∀ rg ∈ vma.vmFreergList, rg.WellFormed size.toNat)
    (apart : vma.vmFreergList.Pairwise fun a b => Disjoint a.bytes b.bytes)
    (returned : vm.getFreeVmrgArea vmaid size newrg = .ok (true, newrg', vm')) :
    vm.Conserves vmaid size.toNat newrg' vm' ↔
      ∃ before rg after, FirstRoom vmaid size.toNat vma.vmFreergList before rg after ∧
        CutOnce vmaid size.toNat rg after := by
  constructor
  · intro conserved
    obtain ⟨_, _, _, _, _, search, _⟩ := getFreeVmrgArea_walks pos area wf newrg
    obtain ⟨visited, -⟩ := Prod.mk.inj (Except.ok.inj (search.symm.trans returned))
    obtain ⟨before, rg, after, first⟩ := exists_firstRoom (supplier_isSome_iff.mp visited)
    exact ⟨before, rg, after, first,
      (search_account area pos wf apart returned first).1.mp conserved.bytes⟩
  · rintro ⟨before, rg, after, first, once⟩
    obtain ⟨bytes, piece⟩ := search_account area pos wf apart returned first
    obtain ⟨start, stop⟩ := piece once
    have same := congrArg BitVec.toNat start
    obtain ⟨wide, some_bytes, -⟩ := signExtend_toNat pos
    have room := first.room
    rw [VmRg.len] at room
    refine ⟨⟨rg, ?_, first.own, by omega, by omega, by omega⟩, by omega, bytes.mpr once⟩
    rw [freeList_eq area, first.split]
    simp

end Search

section TwoAreas

/-- One piece of 150 bytes is cut off the first region, and the 50 left have no room. -/
theorem conserves_iff_twoAreas : twoAreas.Conserves 0 150 ⟨0, 0, 150⟩
    (twoAreas.setFreergList 0 [⟨0, 150, 200⟩, ⟨1, 2000, 2100⟩]) :=
  (conserves_iff (show twoAreas.getVmaByNum 0 =
      some ⟨0, 0, 1024, [⟨0, 0, 200⟩, ⟨1, 2000, 2100⟩]⟩ from rfl)
    (show 0 < (150 : BitVec 32).toInt by decide) (twoAreas_wf (by decide)) twoAreas_list_apart
    (show twoAreas.getFreeVmrgArea 0 150 ⟨0, 0, 0⟩ = _ by decide +kernel)).mpr
    ⟨[], ⟨0, 0, 200⟩, [⟨1, 2000, 2100⟩], ⟨rfl, by simp, rfl, by decide⟩,
      ⟨by decide, by decide, by decide⟩⟩

/-- Of the three pieces of 60 bytes that are cut off the first region two are lost. -/
theorem pieces_lost : ¬ ∀ (vm vm' : Vmm) (vmaid : Int) (size : BitVec 32) (vma : VmArea)
    (newrg newrg' : VmRg), vm.getVmaByNum vmaid = some vma → 0 < size.toInt →
      (∀ rg ∈ vma.vmFreergList, rg.WellFormed size.toNat) →
      (vma.vmFreergList.Pairwise fun a b => Disjoint a.bytes b.bytes) →
      vm.getFreeVmrgArea vmaid size newrg = .ok (true, newrg', vm') →
      vm.Conserves vmaid size.toNat newrg' vm' := by
  intro claim
  have conserved := claim twoAreas
    (twoAreas.setFreergList 0 [⟨0, 180, 200⟩, ⟨1, 2000, 2100⟩]) 0 60
    ⟨0, 0, 1024, [⟨0, 0, 200⟩, ⟨1, 2000, 2100⟩]⟩ ⟨0, 0, 0⟩ ⟨0, 120, 180⟩ rfl (by decide)
    (twoAreas_wf (by decide)) twoAreas_list_apart (by decide +kernel)
  have counted := conserved.bytes (0, 0)
  have before : 0 < cover VmRg.tagged (twoAreas.freeList 0) (0, 0) :=
    (cover_pos _).mpr ⟨⟨0, 0, 200⟩, List.mem_cons_self, rfl, by decide, by decide⟩
  have left : cover VmRg.tagged
      ((twoAreas.setFreergList 0 [⟨0, 180, 200⟩, ⟨1, 2000, 2100⟩]).freeList 0) (0, 0) = 0 := by
    rw [cover_zero]
    intro rg member
    rcases List.mem_pair.mp member with rfl | rfl
    · exact fun here => absurd here.2.1 (by decide)
    · exact fun here => absurd here.2.1 (by decide)
  have returned : cover VmRg.tagged [⟨0, 120, 180⟩] (0, 0) = 0 := by
    rw [cover_zero]
    intro rg member here
    obtain rfl := List.mem_singleton.mp member
    exact absurd here.2.1 (by decide)
  rw [left, returned] at counted
  omega

end TwoAreas
end Vmm
end OsSim
