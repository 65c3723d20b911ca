import OsSim.InitMm
import OsSim.Paging

/-! init_memphy over the memory it finds. MEMPHY_format leaves the link of its first node to
the loop that adds the others, and the list itself alone where there is no frame. -/
namespace OsSim
open Linked

/-- `struct framephy_struct`. -/
structure FpNode where
  fpn : Nat
  fpNext : Ptr

/-- `struct memphy_struct` as it is in memory. -/
structure MemphyNode where
  storage : Nat → BitVec 8
  maxsz : Nat
  rdmflg : Bool
  cursor : Nat
  freeFpList : Ptr

/-- A device with the memory its frame nodes are in. -/
structure MemphyHeap where
  mp : MemphyNode
  fp : Ptr → FpNode

/-- What the calls of malloc in MEMPHY_format return, in their order. -/
structure FrameBlocks where
  block : Nat → Ptr
  some_block : ∀ i, block i ≠ 0
  apart : ∀ i j, block i = block j → i = j

namespace MemphyHeap

def setFp (s : MemphyHeap) (p : Ptr) (node : FpNode) : MemphyHeap :=
  { s with fp := Function.update s.fp p node }

/-- A round of MEMPHY_format's loop: a node is made and linked behind `fst`. -/
def appendFp (s : MemphyHeap) (fst newfst : Ptr) (iter : Nat) : MemphyHeap :=
  let s := s.setFp newfst ⟨iter, 0⟩
  s.setFp fst { s.fp fst with fpNext := newfst }

/-- The loop from `iter` on, with the nodes left to add behind `fst`. -/
def formatLoop (b : FrameBlocks) : (left iter : Nat) → Ptr → MemphyHeap → MemphyHeap
  | 0, _, _, s => s
  | left + 1, iter, fst, s =>
      formatLoop b left (iter + 1) (b.block iter) (s.appendFp fst (b.block iter) iter)

/-- MEMPHY_format: whether it returned 0, and the memory after it. -/
def format (s : MemphyHeap) (b : FrameBlocks) (pagesz : Nat) : Bool × MemphyHeap :=
  let numfp := s.mp.maxsz / pagesz
  if numfp = 0 then (false, s)
  else
    let fst := b.block 0
    let s := s.setFp fst { s.fp fst with fpn := 0 }
    let s := { s with mp := { s.mp with freeFpList := fst } }
    (true, formatLoop b (numfp - 1) 1 fst s)

/-- init_memphy; `storage` is what the block of the storage holds. -/
def initMemphy (s : MemphyHeap) (storage : Nat → BitVec 8) (b : FrameBlocks) (maxSize : Nat)
    (randomflg : Int) : MemphyHeap :=
  let s := { s with mp := { s.mp with storage, maxsz := maxSize } }
  let s := (s.format b pagingPageSz).2
  let rdmflg := decide (randomflg ≠ 0)
  { s with mp := { s.mp with rdmflg, cursor := if rdmflg then s.mp.cursor else 0 } }

/-- MEMPHY_get_freefp, `none` where it returns -1. -/
def getFreefp (s : MemphyHeap) : Option (Nat × MemphyHeap) :=
  let fp := s.mp.freeFpList
  if fp = 0 then none
  else some ((s.fp fp).fpn, { s with mp := { s.mp with freeFpList := (s.fp fp).fpNext } })

/-- What so many calls of MEMPHY_get_freefp give, one after the other. -/
def getFreefps : Nat → MemphyHeap → List (Option Nat)
  | 0, _ => []
  | calls + 1, s =>
      match s.getFreefp with
      | none => none :: getFreefps calls s
      | some (fpn, s) => some fpn :: getFreefps calls s

/-- The free list comes to an end and has these frames. -/
def FreeList (s : MemphyHeap) (fpns : List Nat) : Prop :=
  Reads 0 (fun p => (s.fp p).fpNext) (fun p => (s.fp p).fpn) s.mp.freeFpList fpns

section Lists
variable {s : MemphyHeap}

theorem freeList_nil : s.FreeList [] ↔ s.mp.freeFpList = 0 := reads_nil

theorem freeList_cons {fpn : Nat} {fpns : List Nat} : s.FreeList (fpn :: fpns) ↔
    s.mp.freeFpList ≠ 0 ∧ (s.fp s.mp.freeFpList).fpn = fpn ∧
      FreeList { s with mp := { s.mp with freeFpList := (s.fp s.mp.freeFpList).fpNext } }
        fpns := reads_cons

/-- The calls take the frames off the list in its order, and then find none. -/
theorem FreeList.taken {fpns : List Nat} (list : s.FreeList fpns) :
    s.getFreefps (fpns.length + 1) = fpns.map some ++ [none] := by
  induction fpns generalizing s with
  | nil =>
      have empty := freeList_nil.mp list
      simp [getFreefps, getFreefp, empty]
  | cons fpn fpns ih =>
      obtain ⟨some_node, first, later⟩ := freeList_cons.mp list
      rw [List.length_cons, getFreefps, getFreefp, if_neg some_node]
      dsimp only
      rw [ih later, first]
      rfl

end Lists

section Format
variable {b : FrameBlocks}

theorem setFp_fp (s : MemphyHeap) (p q : Ptr) (node : FpNode) :
    (s.setFp p node).fp q = if q = p then node else s.fp q :=
  Function.update_apply s.fp p node q

theorem appendFp_fp (s : MemphyHeap) {fst newfst : Ptr} (apart : fst ≠ newfst) (iter : Nat)
    (p : Ptr) : (s.appendFp fst newfst iter).fp p =
      if p = fst then ⟨(s.fp fst).fpn, newfst⟩ else if p = newfst then ⟨iter, 0⟩ else s.fp p := by
  rw [appendFp]
  dsimp only
  rw [setFp_fp, setFp_fp, setFp_fp, if_neg apart]

/-- What the loop writes: the nodes it adds are linked in a row behind the one it starts with,
which keeps its link where none is added. -/
theorem formatLoop_spec (b : FrameBlocks) (left i : Nat) (s : MemphyHeap) :
    (formatLoop b left (i + 1) (b.block i) s).mp = s.mp ∧
      (formatLoop b left (i + 1) (b.block i) s).fp (b.block i) =
        ⟨(s.fp (b.block i)).fpn,
          if left = 0 then (s.fp (b.block i)).fpNext else b.block (i + 1)⟩ ∧
      (∀ j, i < j → j ≤ i + left → (formatLoop b left (i + 1) (b.block i) s).fp (b.block j) =
        ⟨j, if j = i + left then 0 else b.block (j + 1)⟩) ∧
      ∀ p, (∀ j, i ≤ j → p ≠ b.block j) →
        (formatLoop b left (i + 1) (b.block i) s).fp p = s.fp p := by
  induction left generalizing i s with
  | zero => exact ⟨rfl, rfl, fun j low high => absurd low (by omega), fun _ _ => rfl⟩
  | succ left ih =>
      have apart : b.block i ≠ b.block (i + 1) := fun same =>
        absurd (b.apart _ _ same) (Nat.succ_ne_self i).symm
      have round := s.appendFp_fp apart (i + 1)
      obtain ⟨mp, first, later, frame⟩ :=
        ih (i + 1) (s.appendFp (b.block i) (b.block (i + 1)) (i + 1))
      refine ⟨mp, ?_, ?_, ?_⟩
      · have behind : ∀ j, i + 1 ≤ j → b.block i ≠ b.block j := fun j low same =>
          absurd (b.apart _ _ same) (by omega)
        rw [formatLoop, frame _ behind, round, if_pos rfl, if_neg (Nat.succ_ne_zero left)]
      · intro j low high
        rw [formatLoop]
        by_cases next : j = i + 1
        · subst next
          rw [first, round, if_neg apart.symm, if_pos rfl]
          exact congrArg _ (if_congr (by omega) rfl rfl)
        · rw [later j (by omega) (by omega)]
          exact congrArg _ (if_congr (by omega) rfl rfl)
      · intro p other
        rw [formatLoop, frame p fun j low => other j (by omega), round, if_neg (other i le_rfl),
          if_neg (other (i + 1) (Nat.le_succ i))]

/-- The nodes of a device of at least one frame: all of its frames in order, if there are two
or if the first node's link was NULL before. -/
theorem formatLoop_list (b : FrameBlocks) (left : Nat) {s : MemphyHeap}
    (head : s.mp.freeFpList = b.block 0) (zero : (s.fp (b.block 0)).fpn = 0) :
    (formatLoop b left 1 (b.block 0) s).FreeList (List.range (left + 1)) ↔
      left ≠ 0 ∨ (s.fp (b.block 0)).fpNext = 0 := by
  obtain ⟨mp, first, later, -⟩ := formatLoop_spec b left 0 s
  by_cases none : left = 0
  · subst none
    rw [or_iff_right (not_not.mpr rfl)]
    refine freeList_cons.trans ?_
    rw [formatLoop, head, zero, freeList_nil]
    exact ⟨fun h => h.2.2, fun last => ⟨b.some_block 0, rfl, last⟩⟩
  · refine iff_of_true ⟨(List.range' 0 (left + 1)).map b.block, ?_, ?_⟩ (.inl none)
    · rw [mp, head]
      refine chain_row b.some_block (fun j _ high => ?_) ?_
      · rcases Nat.eq_zero_or_pos j with rfl | pos
        · rw [first, if_neg none]
        · rw [later j pos high.le, if_neg high.ne]
      · rw [later _ (by omega) le_rfl, if_pos rfl]
    · rw [List.map_map, List.range_eq_range']
      refine (List.map_congr_left fun j member => ?_).trans (List.map_id _)
      rw [List.mem_range'_1] at member
      rcases Nat.eq_zero_or_pos j with rfl | pos
      · exact (congrArg FpNode.fpn first).trans zero
      · exact congrArg FpNode.fpn (later j pos (by omega))

end Format

/-- What init_memphy should make of a device: the frames that fit in it are on its list, and
that many calls of MEMPHY_get_freefp give them, the next one -1. -/
structure OffersFrames (s : MemphyHeap) (maxSize : Nat) : Prop where
  list : s.FreeList (List.range (maxSize / pagingPageSz))
  taken : s.getFreefps (maxSize / pagingPageSz + 1) =
    (List.range (maxSize / pagingPageSz)).map some ++ [none]
  fits : ∀ fpn ∈ List.range (maxSize / pagingPageSz), (fpn + 1) * pagingPageSz ≤ s.mp.maxsz

section Init
variable (s : MemphyHeap) (storage : Nat → BitVec 8) (b : FrameBlocks) (maxSize : Nat)
  (randomflg : Int)

theorem format_mp (pagesz : Nat) : (s.format b pagesz).2.mp =
    { s.mp with freeFpList := (s.format b pagesz).2.mp.freeFpList } := by
  unfold format
  dsimp only
  split
  · rfl
  · rw [(formatLoop_spec b _ 0 _).1]
    rfl

/-- The list that init_memphy leaves: its own where the device has two frames or more, and
else one that ends in what the memory held before. -/
theorem initMemphy_list : (s.initMemphy storage b maxSize randomflg).FreeList
    (List.range (maxSize / pagingPageSz)) ↔
      2 * pagingPageSz ≤ maxSize ∨
      pagingPageSz ≤ maxSize ∧ (s.fp (b.block 0)).fpNext = 0 ∨
      maxSize < pagingPageSz ∧ s.mp.freeFpList = 0 := by
  change ((format { s with mp := { s.mp with storage, maxsz := maxSize } } b
    pagingPageSz).2).FreeList _ ↔ _
  unfold format
  dsimp only
  by_cases none : maxSize / pagingPageSz = 0
  · have small : maxSize < pagingPageSz := by
      simp only [pagingPageSz] at none ⊢
      omega
    rw [if_pos none, none, List.range_zero, freeList_nil, or_iff_right (by omega),
      or_iff_right (fun one => absurd one.1 (not_le.mpr small)), and_iff_right small]
  · rw [if_neg none]
    obtain ⟨left, frames⟩ := Nat.exists_eq_succ_of_ne_zero none
    rw [frames, Nat.succ_sub_one, formatLoop_list b left rfl (by simp [setFp])]
    have link : (((setFp { s with mp := { s.mp with storage, maxsz := maxSize } } (b.block 0)
        { s.fp (b.block 0) with fpn := 0 }).fp (b.block 0)).fpNext) =
          (s.fp (b.block 0)).fpNext := by
      rw [setFp_fp, if_pos rfl]
    rw [link]
    simp only [pagingPageSz] at frames ⊢
    by_cases one : left = 0
    · rw [or_iff_right (not_not.mpr one), or_iff_right (by omega),
        or_iff_left (fun none => absurd none.1 (by omega)), and_iff_right (by omega)]
    · exact iff_of_true (.inl one) (.inl (by omega))

/-- A new device offers exactly its frames where it has two or more; where it has one, if the
block of its node happens to hold NULL for the link; where it has none, if the structure
happens to hold NULL for the list. -/
theorem offersFrames_iff : (s.initMemphy storage b maxSize randomflg).OffersFrames maxSize ↔
    2 * pagingPageSz ≤ maxSize ∨
    pagingPageSz ≤ maxSize ∧ (s.fp (b.block 0)).fpNext = 0 ∨
    maxSize < pagingPageSz ∧ s.mp.freeFpList = 0 := by
  rw [← s.initMemphy_list storage b maxSize randomflg]
  constructor
  · exact OffersFrames.list
  · intro list
    refine ⟨list, ?_, fun fpn member => ?_⟩
    · simpa using list.taken
    · have sized : (s.initMemphy storage b maxSize randomflg).mp.maxsz = maxSize :=
        congrArg MemphyNode.maxsz (format_mp _ b pagingPageSz)
      rw [sized]
      exact Nat.mul_le_of_le_div _ _ _ (List.mem_range.mp member)

end Init

/-- A swap device of size 0, on a structure whose list is not NULL before. -/
theorem free_list_unset : ¬ ∀ (s : MemphyHeap) (storage : Nat → BitVec 8) (b : FrameBlocks)
    (maxSize : Nat) (randomflg : Int),
      (s.initMemphy storage b maxSize randomflg).OffersFrames maxSize := by
  intro claim
  have offers := claim ⟨⟨fun _ => 0, 0, false, 0, 9⟩, fun _ => ⟨0, 0⟩⟩ (fun _ => 0)
    ⟨Nat.succ, Nat.succ_ne_zero, fun _ _ => Nat.succ.inj⟩ 0 1
  exact absurd (freeList_nil.mp offers.list) (by decide)

/-- The memory shows the device. -/
structure Shows (s : MemphyHeap) (mp : Memphy) : Prop where
  storage : s.mp.storage = mp.storage
  maxsz : s.mp.maxsz = mp.maxsz
  rdmflg : s.mp.rdmflg = mp.rdmflg
  list : s.FreeList mp.freeFpList

/-- Where the new device offers its frames, it is the one that the paging starts from. -/
theorem initMemphy_shows {s : MemphyHeap} {storage : Nat → BitVec 8} {b : FrameBlocks}
    {maxSize : Nat} {randomflg : Int}
    (offers : (s.initMemphy storage b maxSize randomflg).OffersFrames maxSize) :
    (s.initMemphy storage b maxSize randomflg).Shows
      (Memphy.format ⟨storage, maxSize, decide (randomflg ≠ 0), []⟩) where
  storage := congrArg MemphyNode.storage (format_mp _ b pagingPageSz)
  maxsz := congrArg MemphyNode.maxsz (format_mp _ b pagingPageSz)
  rdmflg := rfl
  list := offers.list

/-- MEMPHY_get_freefp on the memory is the one on the device it shows. -/
theorem Shows.getFreefp {s : MemphyHeap} {mp : Memphy} (same : s.Shows mp) :
    match s.getFreefp, mp.getFreefp with
    | none, none => True
    | some (fpn, s'), some (fpn', mp') => fpn = fpn' ∧ s'.Shows mp'
    | _, _ => False := by
  obtain ⟨storage, maxsz, rdmflg, list⟩ := same
  unfold MemphyHeap.getFreefp Memphy.getFreefp
  cases fpns : mp.freeFpList with
  | nil =>
      rw [fpns] at list
      simp [freeList_nil.mp list]
  | cons fpn rest =>
      rw [fpns] at list
      obtain ⟨some_node, first, later⟩ := freeList_cons.mp list
      simp only [if_neg some_node]
      exact ⟨first, storage, maxsz, rdmflg, later⟩

end MemphyHeap
end OsSim
