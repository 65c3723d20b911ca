import OsSim.VmMap

/-! vmap_page_range and vm_map_ram when frames run short. The one looks for a frame before it
looks whether the page needs any, the other leaves what it has done so far. -/
namespace OsSim
namespace Mm

/-- The range has a last page, and that one is present. -/
def LastPresent (mm : Mm) (pgn pgnum : Nat) : Prop :=
  pgnum ≠ 0 ∧ ∃ p : Pgn, p.val + 1 = pgn + pgnum ∧ PtePresent (mm.pgd p)

theorem lastPresent_succ {mm : Mm} {pgn left : Nat} (more : left ≠ 0) :
    mm.LastPresent pgn (left + 1) ↔ mm.LastPresent (pgn + 1) left := by
  rw [LastPresent, LastPresent, Nat.succ_add_eq_add_succ]
  exact and_congr_left fun _ => iff_of_true (Nat.succ_ne_zero left) more

/-- Behind a page that needed its frame. -/
theorem lastPresent_mapPage {mm : Mm} {p : Pgn} (absent : ¬ PtePresent (mm.pgd p)) (fpn : Nat)
    {left : Nat} :
    (mm.mapPage p fpn).LastPresent (p.val + 1) left ↔ mm.LastPresent p.val (left + 1) := by
  constructor
  · rintro ⟨more, q, last, present⟩
    have other : q ≠ p := by
      rintro rfl
      omega
    rw [mapPage_pgd, if_neg other] at present
    exact ⟨Nat.succ_ne_zero left, q, by omega, present⟩
  · rintro ⟨-, q, last, present⟩
    have other : q ≠ p := by
      rintro rfl
      exact absent present
    refine ⟨fun none => other (Fin.ext (by omega)), q, by omega, ?_⟩
    rwa [mapPage_pgd, if_neg other]

/-- Where no page needs a frame, the last one needs none. -/
theorem lastPresent_of_mapped {mm : Mm} {pgn left : Nat} {inside : pgn + (left + 1) ≤ pagingMaxPgn}
    (mapped : mm.unmapped (pages pgn (left + 1) inside) = []) : mm.LastPresent pgn (left + 1) := by
  refine ⟨Nat.succ_ne_zero left, ⟨pgn + left, inside⟩, rfl, ?_⟩
  by_contra absent
  have visited : ⟨pgn + left, inside⟩ ∈ pages pgn (left + 1) inside :=
    mem_pages.mpr ⟨Nat.le_add_right pgn left, Nat.lt_succ_self _⟩
  have member := mem_unmapped.mpr ⟨visited, absent⟩
  rw [mapped] at member
  cases member

/-- The loop comes to its end where it has a frame for each page that needs one, and one more
if the last page needs none. -/
theorem vmapLoop_returned {left pgn : Nat} {inside : pgn + left ≤ pagingMaxPgn}
    (frames : List Nat) (mm : Mm) : (vmapLoop pgn left inside frames mm).1 = true ↔
      (mm.unmapped (pages pgn left inside)).length ≤ frames.length ∧
        ¬ ((mm.unmapped (pages pgn left inside)).length = frames.length ∧
          mm.LastPresent pgn left) := by
  induction left generalizing pgn frames mm with
  | zero => simp [vmapLoop, pages, unmapped, LastPresent]
  | succ left ih =>
      cases frames with
      | nil =>
          refine iff_of_false Bool.false_ne_true ?_
          rintro ⟨none, short⟩
          have mapped := List.eq_nil_of_length_eq_zero (Nat.eq_zero_of_le_zero none)
          exact short ⟨congrArg _ mapped, lastPresent_of_mapped mapped⟩
      | cons fpn rest =>
          unfold vmapLoop
          dsimp only
          rw [pages]
          split
          · rename_i present
            rw [ih, unmapped_present _ present]
            refine and_congr_right fun _ => not_congr (and_congr_right fun all => ?_)
            refine (lastPresent_succ ?_).symm
            rintro rfl
            cases all
          · rename_i absent
            have later := mm.unmapped_mapPage inside fpn
            rw [mapPage] at later
            have last : _ ↔ mm.LastPresent pgn (left + 1) := lastPresent_mapPage absent fpn
            rw [mapPage] at last
            rw [ih, later, last, unmapped_absent _ absent, List.length_cons, List.length_cons,
              Nat.add_le_add_iff_right, Nat.add_right_cancel_iff]

/-- The pages that vmap_page_range has to find frames for. -/
def needing (mm : Mm) (addr : BitVec 32) (pgnum : Nat)
    (inside : (pagingPgn addr).val + pgnum ≤ pagingMaxPgn) : List Pgn :=
  mm.unmapped (pages (pagingPgn addr).val pgnum inside)

/-- vmap_page_range does all there is to do where it has the frames for that, and only then
returns 0. -/
structure MapsNeeding (mm : Mm) (addr : BitVec 32) (pgnum : Nat)
    (inside : (pagingPgn addr).val + pgnum ≤ pagingMaxPgn) (frames : List Nat) : Prop where
  returned : (mm.vmapPageRange addr pgnum inside frames).1 = true ↔
    (mm.needing addr pgnum inside).length ≤ frames.length
  mapped : (mm.vmapPageRange addr pgnum inside frames).1 = true →
    (mm.needing addr pgnum inside).map (mm.vmapPageRange addr pgnum inside frames).2.frame =
      (frames.take (mm.needing addr pgnum inside).length).map some
  enlisted : (mm.vmapPageRange addr pgnum inside frames).1 = true →
    (mm.vmapPageRange addr pgnum inside frames).2.fifoPgn =
      (mm.needing addr pgnum inside).reverse ++ mm.fifoPgn
  unchanged : (mm.vmapPageRange addr pgnum inside frames).1 = true →
    ∀ p ∉ mm.needing addr pgnum inside,
      (mm.vmapPageRange addr pgnum inside frames).2.pgd p = mm.pgd p

section Range
variable {addr : BitVec 32} {pgnum : Nat} {inside : (pagingPgn addr).val + pgnum ≤ pagingMaxPgn}
  {frames : List Nat}

theorem needing_nodup {mm : Mm} : (mm.needing addr pgnum inside).Nodup :=
  unmapped_nodup pages_nodup

/-- vmap_page_range fails its purpose only where the frames are used up and the last page,
which needs none, is still to come: it looks for a frame first. -/
theorem mapsNeeding_iff {mm : Mm} (small : ∀ f ∈ frames, f < 2 ^ 13) :
    mm.MapsNeeding addr pgnum inside frames ↔
      ¬ ((mm.needing addr pgnum inside).length = frames.length ∧
        mm.LastPresent (pagingPgn addr).val pgnum) := by
  have returned : (mm.vmapPageRange addr pgnum inside frames).1 = true ↔ _ :=
    mm.vmapLoop_returned frames
  have after : (mm.vmapPageRange addr pgnum inside frames).2 =
      mm.mapPages (mm.needing addr pgnum inside) frames := mm.vmapLoop_eq frames
  constructor
  · rintro maps ⟨used_up, last⟩
    have done := maps.returned.mpr used_up.le
    exact (returned.mp done).2 ⟨used_up, last⟩
  · intro frame_left
    have enough : (mm.vmapPageRange addr pgnum inside frames).1 = true ↔
        (mm.needing addr pgnum inside).length ≤ frames.length :=
      returned.trans (and_iff_left frame_left)
    refine ⟨enough, fun done => ?_, fun done => ?_, fun _ p other => ?_⟩
    · rw [after, mm.mapPages_frames needing_nodup (enough.mp done)]
      refine List.map_congr_left fun f member => congrArg some (Nat.mod_eq_of_lt ?_)
      exact small f (List.mem_of_mem_take member)
    · rw [after, mapPages_fifo, List.take_of_length_le (enough.mp done)]
    · rw [after, mapPages_pgd_other other]

end Range

/-- Two pages for two frames. -/
theorem mapsNeeding_iff_two : init.MapsNeeding 0 2 (by decide) [3, 5] := by
  have absent : ¬ PtePresent 0 := by decide
  refine (mapsNeeding_iff (by decide)).mpr ?_
  rintro ⟨-, -, p, -, present⟩
  exact absent present

/-- One page, mapped already, and no frame: none is needed, but -1 is returned. -/
theorem mapped_page_refused : ¬ ∀ (mm : Mm) (addr : BitVec 32) (pgnum : Nat)
    (inside : (pagingPgn addr).val + pgnum ≤ pagingMaxPgn) (frames : List Nat), frames.Nodup →
      (∀ f ∈ frames, f < 2 ^ 13) → mm.MapsNeeding addr pgnum inside frames := by
  intro claim
  have maps := claim (init.mapPage 0 5) 0 1 (by decide) [] List.nodup_nil (by decide)
  exact absurd (maps.returned.mpr (by decide +kernel)) (by decide +kernel)

end Mm

namespace Caller

/-- vm_map_ram for any number of pages; `none` where it would leave the page table. -/
def vmMapRamAt (c : Caller) (mapstart : BitVec 32) (incpgnum : Int) : Option (Bool × Caller) :=
  match c.allocPagesRange (min incpgnum.toNat pagingMaxPgn) (Nat.min_le_right _ _) [] with
  | (false, _, c) => some (false, c)
  | (true, _, _) =>
      if inside : (pagingPgn mapstart).val + incpgnum.toNat ≤ pagingMaxPgn then
        some (c.vmMapRam mapstart incpgnum.toNat inside)
      else none

/-- A request that fails leaves page table, FIFO list and free frames as they were. -/
def Undone (c : Caller) (mapstart : BitVec 32) (incpgnum : Int) : Prop :=
  ∀ c', c.vmMapRamAt mapstart incpgnum = some (false, c') →
    c'.mm = c.mm ∧ c'.mram.freeFpList = c.mram.freeFpList

/-- The unmapped pages among the first `incpgnum`. -/
def wanted (c : Caller) (incpgnum : Int) : List Pgn :=
  c.requested (min incpgnum.toNat pagingMaxPgn) (Nat.min_le_right _ _)

theorem requested_congr (c : Caller) {n n' : Nat} (same : n = n') (inside : n ≤ pagingMaxPgn)
    (inside' : n' ≤ pagingMaxPgn) : c.requested n inside = c.requested n' inside' := by
  subst same
  rfl

section Request
variable {c : Caller} {mapstart : BitVec 32} {incpgnum : Int}

/-- With frames enough for them it does not fail. -/
theorem vmMapRamAt_enough (enough : (c.wanted incpgnum).length ≤ c.mram.freeFpList.length)
    (c' : Caller) : c.vmMapRamAt mapstart incpgnum ≠ some (false, c') := by
  rw [vmMapRamAt, allocPagesRange_eq, ← wanted, decide_eq_true enough]
  dsimp only
  split
  · rename_i inside
    have same := c.requested_congr (Nat.min_eq_left (incpgnum_inside inside))
      (Nat.min_le_right _ _) (incpgnum_inside inside)
    obtain ⟨returned, -⟩ := c.vmMapRam_eq mapstart incpgnum.toNat inside rfl rfl
    rw [← same, ← wanted, decide_eq_true enough] at returned
    intro failed
    rw [Option.some.inj failed] at returned
    cases returned
  · intro failed
    cases failed

/-- Without them every free frame is taken and mapped before it fails. -/
theorem vmMapRamAt_short (short : c.mram.freeFpList.length < (c.wanted incpgnum).length) :
    c.vmMapRamAt mapstart incpgnum = some (false, { c with
      mm := c.mm.mapPages (c.wanted incpgnum) c.mram.freeFpList
      mram := { c.mram with freeFpList := [] } }) := by
  rw [vmMapRamAt, allocPagesRange_eq, ← wanted, decide_eq_false (Nat.not_le.mpr short),
    List.drop_of_length_le short.le]

end Request

/-- A failed request is undone only where there was no frame to begin with: what it has taken
and mapped by then stays. -/
theorem undone_iff (c : Caller) (mapstart : BitVec 32) (incpgnum : Int) :
    c.Undone mapstart incpgnum ↔ c.mram.freeFpList = [] ∨
      (c.wanted incpgnum).length ≤ c.mram.freeFpList.length := by
  by_cases enough : (c.wanted incpgnum).length ≤ c.mram.freeFpList.length
  · exact iff_of_true (fun c' failed => absurd failed (vmMapRamAt_enough enough c')) (.inr enough)
  · rw [or_iff_left enough, Undone, vmMapRamAt_short (Nat.lt_of_not_le enough)]
    constructor
    · exact fun undone => (undone _ rfl).2.symm
    · intro none c' same
      cases same
      rw [none]
      exact ⟨Mm.mapPages_none _ _, rfl⟩

/-- Two pages and one free frame, which does not come back. -/
theorem frame_not_returned : ¬ ∀ (c : Caller) (mapstart : BitVec 32) (incpgnum : Int),
    c.Undone mapstart incpgnum := by
  intro claim
  let mram : Memphy := ⟨fun _ => 0, 256, true, [0]⟩
  have undone := claim { unmappedCaller with mram } 0 2 _ (vmMapRamAt_short (by decide +kernel))
  cases undone.2

end Caller
end OsSim
