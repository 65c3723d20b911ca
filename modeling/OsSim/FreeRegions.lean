import OsSim.Cover
import OsSim.Vmm

/-! What get_free_vmrg_area takes off a free list, where no sum wraps around: the region it
returns is the last piece it cut, and every piece it cut before that is lost. -/
namespace OsSim
open Cover

namespace VmRg

def bytes (r : VmRg) : Set Nat := Set.Ico r.rgStart.toNat r.rgEnd.toNat

def len (r : VmRg) : Nat := r.rgEnd.toNat - r.rgStart.toNat

theorem bytes_disjoint {a b : VmRg} (below : a.rgEnd.toNat ≤ b.rgStart.toNat) :
    Disjoint a.bytes b.bytes := by
  apply Set.disjoint_left.mpr
  intro x low high
  exact absurd (low.2.trans_le below) (not_lt.mpr high.1)

/-- The region is in order, and `size` bytes more do not wrap around. -/
structure WellFormed (r : VmRg) (size : Nat) : Prop where
  ordered : r.rgStart.toNat ≤ r.rgEnd.toNat
  no_wrap : r.rgEnd.toNat + size < 2 ^ 64

variable {r : VmRg} {size : BitVec 64}

theorem WellFormed.add_toNat (wf : r.WellFormed size.toNat) :
    (r.rgStart + size).toNat = r.rgStart.toNat + size.toNat := by
  have := wf.ordered
  have := wf.no_wrap
  rw [BitVec.toNat_add, Nat.mod_eq_of_lt (by omega)]

theorem WellFormed.fits_iff (wf : r.WellFormed size.toNat) :
    r.rgStart + size ≤ r.rgEnd ↔ size.toNat ≤ r.len := by
  have := wf.ordered
  rw [BitVec.le_def, wf.add_toNat, len]
  omega

theorem WellFormed.leaves_iff (wf : r.WellFormed size.toNat) :
    r.rgStart + size < r.rgEnd ↔ size.toNat < r.len := by
  have := wf.ordered
  rw [BitVec.lt_def, wf.add_toNat, len]
  omega

end VmRg

/-- A used-up region takes over the range of the one after it and keeps its own number. -/
def takeOver (vmaid : Int) : Bool → List VmRg → List VmRg
  | true, rg :: rest => { rg with vmaid } :: rest
  | _, list => list

@[simp] theorem takeOver_false (vmaid : Int) (list : List VmRg) :
    takeOver vmaid false list = list := by
  unfold takeOver
  rfl

/-- The region the returned piece is cut from: the last of those the walk visits that has
room. A region is visited for its number, or because the one before was used up exactly. -/
def supplier (vmaid : Int) (size : Nat) : Bool → List VmRg → Option VmRg
  | _, [] => none
  | takenOver, rg :: rest =>
      if takenOver ∨ rg.vmaid = vmaid then
        (supplier vmaid size (decide (0 < rg.len ∧ size ∣ rg.len)) rest).or
          (if size ≤ rg.len then some rg else none)
      else none

/-- What a walk leaves, and the piece it returns. -/
structure Walked (vmaid : Int) (size : Nat) (takenOver : Bool) (list : List VmRg)
    (newrg newrg' : VmRg) (list' : List VmRg) : Prop where
  vmaid_kept : newrg'.vmaid = newrg.vmaid
  not_found : supplier vmaid size takenOver list = none →
    newrg' = newrg ∧ list' = takeOver vmaid takenOver list
  found : ∀ rg, supplier vmaid size takenOver list = some rg →
    rg.rgStart.toNat ≤ newrg'.rgStart.toNat ∧ newrg'.rgEnd.toNat ≤ rg.rgEnd.toNat ∧
      newrg'.rgEnd.toNat = newrg'.rgStart.toNat + size
  covers : ∀ b, cover VmRg.bytes list' b + cover VmRg.bytes [newrg'] b ≤
    cover VmRg.bytes list b + cover VmRg.bytes [newrg] b
  bounded : ∀ rg' ∈ list', rg'.rgStart.toNat ≤ rg'.rgEnd.toNat ∧
    ∃ rg ∈ list, rg'.rgEnd.toNat ≤ rg.rgEnd.toNat

/-- More than the rounds that a walk along the list takes. -/
def weight (list : List VmRg) : Nat := (list.map fun rg => rg.len + 1).sum + 1

theorem weight_lt_rounds (list : List VmRg) : weight list < Vmm.rounds list := by
  have bound : (list.map fun rg => rg.len + 1).sum ≤ 2 ^ 64 * list.length := by
    induction list with
    | nil => simp
    | cons rg list ih =>
        have := rg.rgEnd.isLt
        rw [List.map_cons, List.sum_cons, List.length_cons, VmRg.len]
        omega
  rw [weight, Vmm.rounds]
  omega

section Walk
variable {vmaid : Int} {size : BitVec 64}

theorem supplier_mem {n : Nat} {list : List VmRg} {takenOver : Bool} {rg : VmRg}
    (h : supplier vmaid n takenOver list = some rg) : rg ∈ list ∧ n ≤ rg.len := by
  induction list generalizing takenOver with
  | nil => cases h
  | cons first rest ih =>
      unfold supplier at h
      split at h
      · rcases Option.or_eq_some_iff.mp h with later | ⟨_, here⟩
        · exact ⟨List.mem_cons_of_mem _ (ih later).1, (ih later).2⟩
        · obtain ⟨fits, same⟩ := Option.ite_none_right_eq_some.mp here
          exact ⟨Option.some.inj same ▸ List.mem_cons_self, Option.some.inj same ▸ fits⟩
      · cases h

theorem supplier_visited {n : Nat} {rg : VmRg} {rest : List VmRg} {takenOver : Bool}
    (visited : takenOver = true ∨ rg.vmaid = vmaid) :
    supplier vmaid n takenOver (rg :: rest) =
      (supplier vmaid n (decide (0 < rg.len ∧ n ∣ rg.len)) rest).or
        (if n ≤ rg.len then some rg else none) :=
  if_pos visited

theorem takeOver_visited (rg : VmRg) (rest : List VmRg) {takenOver : Bool}
    (visited : takenOver = true ∨ rg.vmaid = vmaid) :
    takeOver vmaid takenOver (rg :: rest) = { rg with vmaid } :: rest := by
  cases takenOver with
  | true => rfl
  | false =>
      obtain rfl := visited.resolve_left (by simp)
      rfl

/-- A piece cut off a region that keeps some bytes changes nothing for those after it. -/
theorem supplier_cut {n : Nat} {rg : VmRg} (rg' : VmRg) (rest : List VmRg) {takenOver : Bool}
    (visited : takenOver = true ∨ rg.vmaid = vmaid) (number : rg'.vmaid = rg.vmaid)
    (shorter : rg'.len + n = rg.len) (left : 0 < rg'.len) :
    (∃ x, supplier vmaid n takenOver (rg :: rest) = some x ∧
      supplier vmaid n takenOver (rg' :: rest) = some x) ∨
    supplier vmaid n takenOver (rg :: rest) = some rg ∧
      ∀ x, supplier vmaid n takenOver (rg' :: rest) = some x → x = rg' := by
  have same : (0 < rg.len ∧ n ∣ rg.len) ↔ 0 < rg'.len ∧ n ∣ rg'.len := by
    rw [← shorter, Nat.dvd_add_self_right]
    omega
  rw [supplier_visited visited, supplier_visited (number ▸ visited), decide_eq_decide.mpr same]
  cases later : supplier vmaid n (decide (0 < rg'.len ∧ n ∣ rg'.len)) rest with
  | some x => exact .inl ⟨x, by simp, by simp⟩
  | none =>
      refine .inr ⟨by simp [← shorter], ?_⟩
      intro x h
      simp only [Option.none_or, Option.ite_none_right_eq_some] at h
      exact (Option.some.inj h.2).symm

/-- A region is cut: `piece` is its first `size` bytes, `left` what is left of it. -/
structure Cut (rg : VmRg) (size : BitVec 64) (piece left : VmRg) : Prop where
  first : piece.rgStart = rg.rgStart
  middle : piece.rgEnd.toNat = rg.rgStart.toNat + size.toNat
  next : left.rgStart.toNat = rg.rgStart.toNat + size.toNat
  last : left.rgEnd = rg.rgEnd

variable {takenOver : Bool} {rg piece left newrg newrg' : VmRg} {rest list' : List VmRg}

theorem Cut.len (cut : Cut rg size piece left) (fits : size.toNat ≤ rg.len) :
    left.len + size.toNat = rg.len := by
  have := cut.next
  rw [VmRg.len, cut.last, cut.next, VmRg.len] at *
  omega

theorem Cut.cover_le (cut : Cut rg size piece left) (fits : size.toNat ≤ rg.len) (b : Nat) :
    cover VmRg.bytes [left] b + cover VmRg.bytes [piece] b ≤ cover VmRg.bytes [rg] b := by
  have := rg.rgEnd.toNat
  apply cover_split
  · apply Set.disjoint_left.mpr
    intro x high low
    have above := high.1
    have below := low.2
    rw [cut.next] at above
    rw [cut.middle] at below
    exact absurd above (not_le.mpr below)
  · apply Set.union_subset
    · simp only [VmRg.bytes, cut.last, cut.next]
      exact Set.Ico_subset_Ico_left (Nat.le_add_right _ _)
    · simp only [VmRg.bytes, cut.first, cut.middle]
      rw [VmRg.len] at fits
      rcases Nat.eq_zero_or_pos size.toNat with none | some
      · simp [none]
      · exact Set.Ico_subset_Ico_right (by omega)

theorem Walked.cut (cut : Cut rg size piece left) (number : left.vmaid = rg.vmaid)
    (number' : piece.vmaid = newrg.vmaid) (visited : takenOver = true ∨ rg.vmaid = vmaid)
    (leaves : size.toNat < rg.len)
    (walked : Walked vmaid size.toNat takenOver (left :: rest) piece newrg' list') :
    Walked vmaid size.toNat takenOver (rg :: rest) newrg newrg' list' := by
  have length := cut.len leaves.le
  have := cut.next
  have := cut.middle
  have first := cut.first
  have last := cut.last
  have which := supplier_cut left rest visited number length (by omega)
  refine ⟨walked.vmaid_kept.trans number', ?_, ?_, ?_, ?_⟩
  · intro none
    rcases which with ⟨x, some, _⟩ | ⟨some, _⟩
    · cases none.symm.trans some
    · cases none.symm.trans some
  · intro x h
    rcases which with ⟨y, before, after⟩ | ⟨before, after⟩
    · obtain rfl := Option.some.inj (h.symm.trans before)
      exact walked.found _ after
    · obtain rfl := Option.some.inj (before.symm.trans h)
      cases next : supplier vmaid size.toNat takenOver (left :: rest) with
      | none =>
          obtain ⟨rfl, _⟩ := walked.not_found next
          rw [VmRg.len] at leaves
          rw [first]
          exact ⟨le_rfl, by omega, by omega⟩
      | some y =>
          obtain ⟨low, high, size⟩ := walked.found y next
          obtain rfl := after y next
          rw [last] at high
          exact ⟨by omega, high, size⟩
  · intro b
    have covers := walked.covers b
    have pieces := cut.cover_le leaves.le b
    rw [cover_cons_append _ left rest] at covers
    rw [cover_cons_append _ rg rest]
    omega
  · intro rg' member
    obtain ⟨order, old, inside, bound⟩ := walked.bounded rg' member
    refine ⟨order, ?_⟩
    rcases List.mem_cons.mp inside with rfl | inside
    · exact ⟨rg, List.mem_cons_self, last ▸ bound⟩
    · exact ⟨old, List.mem_cons_of_mem _ inside, bound⟩

/-- The whole region is the piece, and the walk goes on in its place with the next one. -/
theorem Walked.usedUp (first : piece.rgStart = rg.rgStart) (last : piece.rgEnd = rg.rgEnd)
    (number : piece.vmaid = newrg.vmaid) (visited : takenOver = true ∨ rg.vmaid = vmaid)
    (all : rg.len = size.toNat) (pos : 0 < size.toNat)
    (walked : Walked vmaid size.toNat true rest piece newrg' list') :
    Walked vmaid size.toNat takenOver (rg :: rest) newrg newrg' list' := by
  have exact_fit : decide (0 < rg.len ∧ size.toNat ∣ rg.len) = true := by
    rw [decide_eq_true_iff, all]
    exact ⟨pos, dvd_rfl⟩
  have here : supplier vmaid size.toNat takenOver (rg :: rest) =
      (supplier vmaid size.toNat true rest).or (some rg) := by
    rw [supplier_visited visited, exact_fit, if_pos all.ge]
  refine ⟨walked.vmaid_kept.trans number, ?_, ?_, ?_, ?_⟩
  · intro none
    rw [here, Option.or_eq_none_iff] at none
    cases none.2
  · intro x h
    rw [here] at h
    cases next : supplier vmaid size.toNat true rest with
    | some y =>
        rw [next] at h
        obtain rfl := Option.some.inj h
        exact walked.found _ next
    | none =>
        rw [next] at h
        obtain rfl := Option.some.inj h
        obtain ⟨rfl, _⟩ := walked.not_found next
        rw [first, last]
        refine ⟨le_rfl, le_rfl, ?_⟩
        rw [VmRg.len] at all
        omega
  · intro b
    have covers := walked.covers b
    have whole : cover VmRg.bytes [piece] b ≤ cover VmRg.bytes [rg] b :=
      cover_mono _ (by rw [VmRg.bytes, VmRg.bytes, first, last]) b
    rw [cover_cons_append _ rg rest]
    omega
  · intro rg' member
    obtain ⟨order, old, inside, bound⟩ := walked.bounded rg' member
    exact ⟨order, old, List.mem_cons_of_mem _ inside, bound⟩

/-- A region that has no room is passed over. -/
theorem Walked.skip (wf : rg.WellFormed size.toNat) (visited : takenOver = true ∨ rg.vmaid = vmaid)
    (small : ¬ size.toNat ≤ rg.len)
    (walked : Walked vmaid size.toNat false rest newrg newrg' list') :
    Walked vmaid size.toNat takenOver (rg :: rest) newrg newrg' ({ rg with vmaid } :: list') := by
  have no_fit : decide (0 < rg.len ∧ size.toNat ∣ rg.len) = false := by
    rw [decide_eq_false_iff_not]
    rintro ⟨some_bytes, divides⟩
    exact small (Nat.le_of_dvd some_bytes divides)
  have here : supplier vmaid size.toNat takenOver (rg :: rest) =
      supplier vmaid size.toNat false rest := by
    rw [supplier_visited visited, no_fit, if_neg small, Option.or_none]
  refine ⟨walked.vmaid_kept, ?_, ?_, ?_, ?_⟩
  · intro none
    rw [here] at none
    obtain ⟨rfl, rfl⟩ := walked.not_found none
    exact ⟨rfl, (takeOver_visited rg _ visited).symm⟩
  · intro x h
    exact walked.found x (here.symm.trans h)
  · intro b
    have covers := walked.covers b
    rw [cover_cons_append _ rg rest, cover_cons_append _ { rg with vmaid } list',
      show cover VmRg.bytes [{ rg with vmaid }] b = cover VmRg.bytes [rg] b from rfl]
    omega
  · intro rg' member
    rcases List.mem_cons.mp member with rfl | member
    · exact ⟨wf.ordered, rg, List.mem_cons_self, le_rfl⟩
    · obtain ⟨order, old, inside, bound⟩ := walked.bounded rg' member
      exact ⟨order, old, List.mem_cons_of_mem _ inside, bound⟩

/-- Where the region used up is the last one, a region of no bytes stays behind. -/
theorem walk_last (wf : rg.WellFormed size.toNat) (pos : 0 < size.toNat) (rounds : Nat)
    (newrg : VmRg) : Vmm.walk vmaid size (rounds + 2) [⟨vmaid, rg.rgEnd, rg.rgEnd⟩] newrg =
      some (newrg, [⟨vmaid, rg.rgEnd, rg.rgEnd⟩]) := by
  have dummy : VmRg.WellFormed ⟨vmaid, rg.rgEnd, rg.rgEnd⟩ size.toNat := ⟨le_rfl, wf.no_wrap⟩
  refine Vmm.walk_skip rfl ?_
  rw [dummy.fits_iff]
  dsimp only [VmRg.len]
  omega

theorem Walked.last (first : piece.rgStart = rg.rgStart)
    (last : piece.rgEnd = rg.rgEnd) (number : piece.vmaid = newrg.vmaid)
    (visited : takenOver = true ∨ rg.vmaid = vmaid) (all : rg.len = size.toNat)
    (pos : 0 < size.toNat) :
    Walked vmaid size.toNat takenOver [rg] newrg piece [⟨vmaid, rg.rgEnd, rg.rgEnd⟩] := by
  have nothing : Walked vmaid size.toNat true [] piece piece [] :=
    ⟨rfl, fun _ => ⟨rfl, rfl⟩, fun _ h => (nomatch h), fun _ => le_rfl, fun _ h => (nomatch h)⟩
  have used := nothing.usedUp first last number visited all pos
  refine ⟨used.vmaid_kept, ?_, used.found, ?_, ?_⟩
  · intro none
    obtain ⟨_, empty⟩ := used.not_found none
    rw [takeOver_visited rg [] visited] at empty
    cases empty
  · intro b
    have covers := used.covers b
    have dummy : cover VmRg.bytes [⟨vmaid, rg.rgEnd, rg.rgEnd⟩] b = 0 :=
      cover_empty _ (Set.Ico_self _) b
    rw [cover_nil] at covers
    omega
  · intro r member
    obtain rfl := List.mem_singleton.mp member
    exact ⟨le_rfl, rg, List.mem_cons_self, le_rfl⟩

/-- The walk over a list none of whose sums wraps around comes to an end. -/
theorem walk_spec (pos : 0 < size.toNat) {rounds : Nat} {list : List VmRg} {takenOver : Bool}
    {newrg : VmRg} (enough : weight list < rounds)
    (wf : ∀ rg ∈ list, rg.WellFormed size.toNat) :
    ∃ newrg' list', Vmm.walk vmaid size rounds (takeOver vmaid takenOver list) newrg =
      some (newrg', list') ∧ Walked vmaid size.toNat takenOver list newrg newrg' list' := by
  induction rounds generalizing list takenOver newrg with
  | zero => exact absurd enough (Nat.not_lt_zero _)
  | succ rounds ih =>
      cases list with
      | nil =>
          refine ⟨newrg, [], ?_, rfl, fun _ => ⟨rfl, ?_⟩, nofun, fun _ => le_rfl, nofun⟩
          · cases takenOver <;> rfl
          · cases takenOver <;> rfl
      | cons rg rest =>
          simp only [weight, List.map_cons, List.sum_cons] at enough ih
          have here := wf rg List.mem_cons_self
          have later : ∀ r ∈ rest, r.WellFormed size.toNat := fun r member =>
            wf r (List.mem_cons_of_mem _ member)
          by_cases visited : takenOver = true ∨ rg.vmaid = vmaid
          · rw [takeOver_visited rg rest visited]
            have own : ({ rg with vmaid } : VmRg).vmaid = vmaid := rfl
            by_cases fits : size.toNat ≤ rg.len
            · have room := here.fits_iff.mpr fits
              have middle := here.add_toNat
              let piece : VmRg := ⟨newrg.vmaid, rg.rgStart, rg.rgStart + size⟩
              by_cases leaves : size.toNat < rg.len
              · let left : VmRg := ⟨rg.vmaid, rg.rgStart + size, rg.rgEnd⟩
                have cut : Cut rg size piece left := ⟨rfl, middle, middle, rfl⟩
                have length := cut.len fits
                have left_wf : left.WellFormed size.toNat := by
                  refine ⟨?_, here.no_wrap⟩
                  rw [VmRg.len] at fits
                  rw [cut.next, cut.last]
                  omega
                obtain ⟨newrg', list', walks, walked⟩ := @ih (left :: rest) takenOver piece
                  (by rw [List.map_cons, List.sum_cons]; omega)
                  (List.forall_mem_cons.mpr ⟨left_wf, later⟩)
                rw [takeOver_visited left rest visited] at walks
                rw [Vmm.walk_leaves own room (here.leaves_iff.mpr leaves)]
                exact ⟨newrg', list', walks, walked.cut cut rfl rfl visited leaves⟩
              · have exact_fit := mt here.leaves_iff.mp leaves
                have all : rg.len = size.toNat := by omega
                have to_end : piece.rgEnd = rg.rgEnd := by
                  apply BitVec.eq_of_toNat_eq
                  rw [VmRg.len] at all
                  exact middle.trans (by omega)
                cases rest with
                | nil =>
                    obtain ⟨more, rfl⟩ : ∃ more, rounds = more + 2 := ⟨rounds - 2, by
                      simp only [List.map_nil, List.sum_nil] at enough
                      omega⟩
                    rw [Vmm.walk_end own room exact_fit]
                    exact ⟨piece, _, walk_last here pos more piece,
                      .last rfl to_end rfl visited all pos⟩
                | cons next rest =>
                    obtain ⟨newrg', list', walks, walked⟩ := @ih (next :: rest) true piece
                      (by omega) later
                    rw [Vmm.walk_next own room exact_fit]
                    have whole : piece.rgStart = rg.rgStart := rfl
                    exact ⟨newrg', list', walks, walked.usedUp whole to_end rfl visited all pos⟩
            · rw [Vmm.walk_skip own (mt here.fits_iff.mp fits)]
              obtain ⟨newrg', list', walks, walked⟩ := @ih rest false newrg (by omega) later
              refine ⟨newrg', { rg with vmaid } :: list', ?_, walked.skip here visited fits⟩
              rw [show Vmm.walk vmaid size rounds rest newrg = _ from walks]
              rfl
          · obtain ⟨free, number⟩ := not_or.mp visited
            obtain rfl : takenOver = false := by simpa using free
            have stops : supplier vmaid size.toNat false (rg :: rest) = none := if_neg visited
            refine ⟨newrg, rg :: rest, Vmm.walk_other number, rfl, fun _ => ⟨rfl, rfl⟩, ?_,
              fun _ => le_rfl, ?_⟩
            · intro x h
              rw [stops] at h
              cases h
            · intro r member
              exact ⟨(wf r member).ordered, r, member, le_rfl⟩

end Walk

theorem toNat_of_nonneg {x : BitVec 32} (nonneg : 0 ≤ x.toInt) :
    x.toNat = x.toInt.toNat ∧ x.toNat < 2 ^ 31 := by
  have sign := BitVec.toInt_eq_toNat_cond x
  have := x.isLt
  split at sign
  · omega
  · omega

theorem signExtend_small {x : BitVec 32} (small : x.toNat < 2 ^ 31) :
    (x.signExtend 64).toNat = x.toNat := by
  have msb : x.msb = false := by
    rw [BitVec.msb_eq_false_iff_two_mul_lt]
    omega
  rw [BitVec.signExtend_eq_setWidth_of_msb_false msb, BitVec.toNat_setWidth,
    Nat.mod_eq_of_lt (by omega)]

theorem signExtend_toNat {size : BitVec 32} (pos : 0 < size.toInt) :
    (size.signExtend 64).toNat = size.toNat ∧ 0 < size.toNat ∧ size.toNat < 2 ^ 31 := by
  obtain ⟨same, small⟩ := toNat_of_nonneg pos.le
  exact ⟨signExtend_small small, by omega, small⟩

theorem toInt_toNat {size : BitVec 32} (pos : 0 < size.toInt) : size.toInt.toNat = size.toNat :=
  (toNat_of_nonneg pos.le).1.symm

namespace Vmm
variable {vm : Vmm} {vmaid : Int}

theorem setFreergList_same {vma : VmArea} (h : vm.getVmaByNum vmaid = some vma) :
    vm.setFreergList vmaid vma.vmFreergList = vm := by
  have at_vma : vm.mmap[vmaid.toNat]? = some vma := h
  have same : vm.mmap.modify vmaid.toNat
      (fun a => { a with vmFreergList := vma.vmFreergList }) = vm.mmap := by
    apply List.ext_getElem?
    intro n
    rw [List.getElem?_modify]
    split
    · rename_i here
      rw [← here, at_vma]
      rfl
    · simp
  rw [setFreergList, same]

theorem getVmaByNum_setFreergList {vma : VmArea}
    (area : vm.getVmaByNum vmaid = some vma) (list : List VmRg) :
    (vm.setFreergList vmaid list).getVmaByNum vmaid = some { vma with vmFreergList := list } := by
  change (vm.mmap.modify _ _)[_]? = _
  rw [List.getElem?_modify, show vm.mmap[vmaid.toNat]? = some vma from area]
  simp

/-- What get_free_vmrg_area does on an area: it finds a region where the list has a
supplier, and leaves the list alone where it has none. -/
structure Searched (vm : Vmm) (vmaid : Int) (size : Nat) (list : List VmRg) (found : Bool)
    (newrg : VmRg) (vm' : Vmm) : Prop where
  found_iff : found = (supplier vmaid size false list).isSome
  piece : ∀ rg, supplier vmaid size false list = some rg → newrg.vmaid = vmaid ∧
    rg.rgStart.toNat ≤ newrg.rgStart.toNat ∧ newrg.rgEnd.toNat ≤ rg.rgEnd.toNat ∧
      newrg.rgEnd.toNat = newrg.rgStart.toNat + size
  unchanged : supplier vmaid size false list = none → vm' = vm
  left : ∃ list', vm' = vm.setFreergList vmaid list' ∧
    (found = true → ∀ b, cover VmRg.bytes list' b + cover VmRg.bytes [newrg] b ≤
      cover VmRg.bytes list b) ∧
    ∀ rg' ∈ list', rg'.rgStart.toNat ≤ rg'.rgEnd.toNat ∧
      ∃ rg ∈ list, rg'.rgEnd.toNat ≤ rg.rgEnd.toNat

section Searched
variable {vm' : Vmm} {size : Nat} {list : List VmRg} {found : Bool} {newrg : VmRg}

theorem Searched.misses (searched : Searched vm vmaid size list found newrg vm')
    (none : supplier vmaid size false list = none) : found = false ∧ vm' = vm := by
  refine ⟨?_, searched.unchanged none⟩
  rw [searched.found_iff, none]
  rfl

theorem Searched.finds (searched : Searched vm vmaid size list found newrg vm') {rg : VmRg}
    (supplied : supplier vmaid size false list = some rg) : found = true := by
  rw [searched.found_iff, supplied]
  rfl

end Searched

theorem getFreeVmrgArea_nil {size : BitVec 32} {vma : VmArea}
    (h : vm.getVmaByNum vmaid = some vma) (list : vma.vmFreergList = []) (newrg : VmRg) :
    vm.getFreeVmrgArea vmaid size newrg = .ok (false, newrg, vm) := by
  unfold getFreeVmrgArea
  rw [h]
  dsimp only
  rw [list]

theorem getFreeVmrgArea_cons {size : BitVec 32} {vma : VmArea}
    (h : vm.getVmaByNum vmaid = some vma) {rgit : VmRg} {rest : List VmRg}
    (list : vma.vmFreergList = rgit :: rest) (newrg : VmRg) :
    vm.getFreeVmrgArea vmaid size newrg = vm.afterWalk vmaid
      (walk vmaid (size.signExtend 64) (rounds (rgit :: rest)) (rgit :: rest)
        { newrg with rgStart := -1, rgEnd := -1 }) := by
  unfold getFreeVmrgArea
  rw [h]
  dsimp only
  rw [list]

/-- get_free_vmrg_area as the walk it makes. On an empty list the walk finds nothing either,
and the region passed to the call is left alone. -/
theorem getFreeVmrgArea_walks {size : BitVec 32} (pos : 0 < size.toInt) {vma : VmArea}
    (h : vm.getVmaByNum vmaid = some vma)
    (wf : ∀ rg ∈ vma.vmFreergList, rg.WellFormed size.toNat) (newrg : VmRg) :
    ∃ piece list', walk vmaid (size.signExtend 64) (rounds vma.vmFreergList) vma.vmFreergList
        ⟨newrg.vmaid, -1, -1⟩ = some (piece, list') ∧
      Walked vmaid size.toNat false vma.vmFreergList ⟨newrg.vmaid, -1, -1⟩ piece list' ∧
      ∃ newrg', vm.getFreeVmrgArea vmaid size newrg =
          .ok ((supplier vmaid size.toNat false vma.vmFreergList).isSome, newrg',
            vm.setFreergList vmaid list') ∧
        ((supplier vmaid size.toNat false vma.vmFreergList).isSome = true → newrg' = piece) := by
  obtain ⟨wide, some_bytes, _⟩ := signExtend_toNat pos
  rw [← wide] at wf some_bytes ⊢
  have enough := weight_lt_rounds vma.vmFreergList
  obtain ⟨piece, list', walks, walked⟩ := @walk_spec vmaid _ some_bytes _ vma.vmFreergList false
    ⟨newrg.vmaid, -1, -1⟩ enough wf
  rw [takeOver_false] at walks
  refine ⟨piece, list', walks, walked, ?_⟩
  cases list : vma.vmFreergList with
  | nil =>
      obtain ⟨-, same⟩ := walked.not_found (by rw [list]; rfl)
      rw [takeOver_false] at same
      refine ⟨newrg, ?_, nofun⟩
      rw [getFreeVmrgArea_nil h list, same, setFreergList_same h]
      rfl
  | cons rgit rest =>
      rw [← list]
      refine ⟨piece, ?_, fun _ => rfl⟩
      rw [getFreeVmrgArea_cons h list, ← list]
      rw [walks]
      refine congrArg (fun found => Except.ok (found, piece, vm.setFreergList vmaid list')) ?_
      cases which : supplier vmaid (size.signExtend 64).toNat false vma.vmFreergList with
      | none =>
          obtain ⟨rfl, _⟩ := walked.not_found which
          rfl
      | some rg =>
          obtain ⟨_, _, bytes⟩ := walked.found rg which
          apply decide_eq_true
          intro probed
          have := piece.rgEnd.isLt
          rw [bytes, probed] at this
          have probe_value : (-1 : BitVec 64).toNat = 2 ^ 64 - 1 := by decide
          omega

/-- The region the search starts from has no bytes. -/
theorem cover_probe (number : Int) (b : Nat) : cover VmRg.bytes [⟨number, -1, -1⟩] b = 0 :=
  cover_empty _ (Set.Ico_self _) b

theorem getFreeVmrgArea_spec {size : BitVec 32} (pos : 0 < size.toInt) {vma : VmArea}
    (h : vm.getVmaByNum vmaid = some vma)
    (wf : ∀ rg ∈ vma.vmFreergList, rg.WellFormed size.toNat) :
    ∃ found newrg vm', vm.getFreeVmrgArea vmaid size ⟨vmaid, 0, 0⟩ = .ok (found, newrg, vm') ∧
      Searched vm vmaid size.toNat vma.vmFreergList found newrg vm' := by
  obtain ⟨piece, list', _, walked, newrg', search, same⟩ :=
    getFreeVmrgArea_walks pos h wf ⟨vmaid, 0, 0⟩
  refine ⟨_, newrg', _, search, rfl, ?_, ?_, list', rfl, ?_, walked.bounded⟩
  · intro rg which
    rw [same (by rw [which]; rfl)]
    exact ⟨walked.vmaid_kept, walked.found rg which⟩
  · intro none
    obtain ⟨_, rfl⟩ := walked.not_found none
    rw [takeOver_false, setFreergList_same h]
  · intro found b
    have covers := walked.covers b
    rw [cover_probe] at covers
    rw [same found]
    exact covers

theorem symIndex_val (i : Fin pagingMaxSymtblSz) : symIndex i.val = some i := by
  rw [symIndex, dif_pos ⟨Int.natCast_nonneg _, Int.ofNat_lt.mpr i.isLt⟩]
  rfl

/-- The check of inc_vma_limit passes for what __alloc asks it for. -/
def mayGrow (vm : Vmm) (vmemsz : BitVec 32) (vmaid : Int) (size : BitVec 32) : Bool :=
  match vm.getVmaByNum vmaid with
  | none => false
  | some vma => vm.mayInc vmemsz vmaid vma
      (pagingPageAlignsz (expandSize vmaid size (pagingPageAlignsz size)))

theorem incVmaLimit_null (vm : Vmm) (vmemsz : BitVec 32) (vmaid : Int) (size : BitVec 32) :
    vm.incVmaLimit vmemsz vmaid (expandSize vmaid size (pagingPageAlignsz size)) none =
      if vm.mayGrow vmemsz vmaid size then .error .nullIncLimitRet else .ok (false, none, vm) := by
  unfold incVmaLimit mayGrow
  cases vm.getVmaByNum vmaid with
  | none => rfl
  | some vma => rfl

section Alloc
variable {vmemsz : BitVec 32} {rgid : Int} {size : BitVec 32} {newrg : VmRg} {vm' : Vmm}

theorem alloc_nonpos (nonpos : ¬ 0 < size.toInt) :
    vm.alloc vmemsz vmaid rgid size = .ok (false, vm) :=
  if_neg nonpos

theorem alloc_error (pos : 0 < size.toInt) {fault : Fault}
    (search : vm.getFreeVmrgArea vmaid size ⟨vmaid, 0, 0⟩ = .error fault) :
    vm.alloc vmemsz vmaid rgid size = .error fault := by
  obtain ⟨k, rounds⟩ := Nat.exists_eq_succ_of_ne_zero (signExtend_toNat pos).2.1.ne'
  rw [alloc, if_pos pos, rounds, allocLoop, if_pos pos, search]
  rfl

theorem alloc_found (pos : 0 < size.toInt)
    (search : vm.getFreeVmrgArea vmaid size ⟨vmaid, 0, 0⟩ = .ok (true, newrg, vm')) :
    vm.alloc vmemsz vmaid rgid size = (vm'.storeSymrg rgid newrg).map (true, ·) := by
  obtain ⟨k, rounds⟩ := Nat.exists_eq_succ_of_ne_zero (signExtend_toNat pos).2.1.ne'
  rw [alloc, if_pos pos, rounds, allocLoop, if_pos pos, search]
  rfl

/-- Where nothing is found __alloc returns only if the area may not grow: if it may, the
amount is written through the NULL pointer that inc_vma_limit is given. -/
theorem alloc_not_found (pos : 0 < size.toInt)
    (search : vm.getFreeVmrgArea vmaid size ⟨vmaid, 0, 0⟩ = .ok (false, newrg, vm')) :
    vm.alloc vmemsz vmaid rgid size =
      if vm'.mayGrow vmemsz vmaid size then .error .nullIncLimitRet else .ok (false, vm') := by
  obtain ⟨k, rounds⟩ := Nat.exists_eq_succ_of_ne_zero (signExtend_toNat pos).2.1.ne'
  rw [alloc, if_pos pos, rounds, allocLoop, if_pos pos, search]
  dsimp only [bind, Except.bind]
  rw [incVmaLimit_null]
  cases vm'.mayGrow vmemsz vmaid size with
  | true => rfl
  | false => rfl

end Alloc

/-- Everything __alloc can do, from what it finds in the free list. -/
inductive Allocs (vm : Vmm) (vmemsz : BitVec 32) (vmaid rgid : Int) (size : BitVec 32) :
    Except Fault (Bool × Vmm) → Prop
  | nothing : ¬ 0 < size.toInt → Allocs vm vmemsz vmaid rgid size (.ok (false, vm))
  | fault {f} : 0 < size.toInt → vm.getFreeVmrgArea vmaid size ⟨vmaid, 0, 0⟩ = .error f →
      Allocs vm vmemsz vmaid rgid size (.error f)
  | found {newrg vm'} : 0 < size.toInt →
      vm.getFreeVmrgArea vmaid size ⟨vmaid, 0, 0⟩ = .ok (true, newrg, vm') →
      Allocs vm vmemsz vmaid rgid size ((vm'.storeSymrg rgid newrg).map (true, ·))
  | grown {newrg vm'} : 0 < size.toInt →
      vm.getFreeVmrgArea vmaid size ⟨vmaid, 0, 0⟩ = .ok (false, newrg, vm') →
      vm'.mayGrow vmemsz vmaid size = true →
      Allocs vm vmemsz vmaid rgid size (.error .nullIncLimitRet)
  | refused {newrg vm'} : 0 < size.toInt →
      vm.getFreeVmrgArea vmaid size ⟨vmaid, 0, 0⟩ = .ok (false, newrg, vm') →
      vm'.mayGrow vmemsz vmaid size = false →
      Allocs vm vmemsz vmaid rgid size (.ok (false, vm'))

theorem alloc_spec (vm : Vmm) (vmemsz : BitVec 32) (vmaid rgid : Int) (size : BitVec 32) :
    Allocs vm vmemsz vmaid rgid size (vm.alloc vmemsz vmaid rgid size) := by
  by_cases pos : 0 < size.toInt
  · cases search : vm.getFreeVmrgArea vmaid size ⟨vmaid, 0, 0⟩ with
    | error f =>
        rw [alloc_error pos search]
        exact .fault pos search
    | ok r =>
        rcases r with ⟨found, newrg, vm'⟩
        cases found with
        | true =>
            rw [alloc_found pos search]
            exact .found pos search
        | false =>
            rw [alloc_not_found pos search]
            cases may : vm'.mayGrow vmemsz vmaid size with
            | true => exact .grown pos search may
            | false => exact .refused pos search may
  · rw [alloc_nonpos pos]
    exact .nothing pos

end Vmm
end OsSim
