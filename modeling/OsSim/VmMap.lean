import OsSim.AllocPages
import OsSim.Possession

/-! vmap_page_range and vm_map_ram. vm_map_ram takes frames for the pages from 0 on and
maps the pages from its mapping point on; the two ranges meet where they are the same. -/
namespace OsSim
open Possession

namespace Mm

/-- The loop of vmap_page_range from page `pgn` on: it stops where the frames end, also in
front of a page that needs none. -/
def vmapLoop (pgn : Nat) : (left : Nat) → pgn + left ≤ pagingMaxPgn → List Nat → Mm → Bool × Mm
  | 0, _, _, mm => (true, mm)
  | _ + 1, _, [], mm => (false, mm)
  | left + 1, inside, fpn :: rest, mm =>
      let p : Pgn := ⟨pgn, page_inside inside⟩
      if PtePresent (mm.pgd p) then
        vmapLoop (pgn + 1) left (next_inside inside) (fpn :: rest) mm
      else
        vmapLoop (pgn + 1) left (next_inside inside) rest
          ((mm.setPte p (pteSetFpn (mm.pgd p) fpn)).enlistPgnNode p)

def vmapPageRange (mm : Mm) (addr : BitVec 32) (pgnum : Nat)
    (inside : (pagingPgn addr).val + pgnum ≤ pagingMaxPgn) (frames : List Nat) : Bool × Mm :=
  vmapLoop (pagingPgn addr).val pgnum inside frames mm

theorem vmapLoop_eq {left pgn : Nat} {inside : pgn + left ≤ pagingMaxPgn} (frames : List Nat)
    (mm : Mm) : (vmapLoop pgn left inside frames mm).2 =
      mm.mapPages (mm.unmapped (pages pgn left inside)) frames := by
  induction left generalizing pgn frames mm with
  | zero => simp [vmapLoop, pages, unmapped]
  | succ left ih =>
      cases frames with
      | nil => simp [vmapLoop]
      | cons fpn rest =>
          unfold vmapLoop
          dsimp only
          rw [pages]
          split
          · rename_i present
            rw [unmapped_present _ present]
            exact ih _ mm
          · rename_i absent
            rw [unmapped_absent _ absent, mapPages_cons]
            exact (ih _ _).trans (congrArg (mapPages _ · rest) (mm.unmapped_mapPage inside fpn))

theorem framesDistinct_iff (mm : Mm) : mm.FramesDistinct ↔ Exclusive mm.frame [] :=
  ⟨fun distinct => ⟨distinct, fun _ _ _ => List.not_mem_nil⟩, Exclusive.single⟩

/-- A page without a frame is given one: the frames stay distinct when it is nobody's. -/
theorem mapPage_distinct_iff {mm : Mm} (distinct : mm.FramesDistinct) {pgn : Pgn}
    (absent : ¬ PtePresent (mm.pgd pgn)) (fpn : Nat) :
    (mm.mapPage pgn fpn).FramesDistinct ↔ ∀ q, mm.frame q ≠ some (fpn % 2 ^ 13) := by
  have empty : mm.frame pgn = none := pteFrame_absent absent
  rw [framesDistinct_iff, mapPage_frame, ((mm.framesDistinct_iff).mp distinct).grant_iff empty]
  exact and_iff_right List.not_mem_nil

theorem mapPages_frame_kept {mm : Mm} {ps : List Pgn} {fs : List Nat}
    (absent : ∀ p ∈ ps, ¬ PtePresent (mm.pgd p)) {q : Pgn} {fpn : Nat}
    (holds : mm.frame q = some fpn) : (mm.mapPages ps fs).frame q = some fpn := by
  rw [frame, mapPages_pgd_other]
  · exact holds
  · intro member
    exact absent q member (pteFrame_some holds).1

theorem absent_mapPage {mm : Mm} {p : Pgn} {ps : List Pgn} (other : p ∉ ps) (f : Nat)
    (absent : ∀ q ∈ ps, ¬ PtePresent (mm.pgd q)) :
    ∀ q ∈ ps, ¬ PtePresent ((mm.mapPage p f).pgd q) := by
  intro q member
  rw [mapPage_present]
  rintro (present | rfl)
  · exact absent q member present
  · exact other member

/-- The same for a list of pages, by induction on it. -/
theorem mapPages_distinct_iff {mm : Mm} {ps : List Pgn} (fs : List Nat)
    (distinct : mm.FramesDistinct) (absent : ∀ p ∈ ps, ¬ PtePresent (mm.pgd p))
    (nodup : ps.Nodup) : (mm.mapPages ps fs).FramesDistinct ↔
      ((fs.take ps.length).map (· % 2 ^ 13)).Nodup ∧
        ∀ f ∈ fs.take ps.length, ∀ q, mm.frame q ≠ some (f % 2 ^ 13) := by
  induction ps generalizing mm fs with
  | nil => simpa using distinct
  | cons p ps ih =>
      obtain ⟨other, nodup⟩ := List.nodup_cons.mp nodup
      cases fs with
      | nil => simpa using distinct
      | cons f fs =>
          have later := absent_mapPage other f fun q member =>
            absent q (List.mem_cons_of_mem p member)
          have first := mapPage_distinct_iff distinct (absent p List.mem_cons_self) f
          have frame : ∀ q, (mm.mapPage p f).frame q =
              if q = p then some (f % 2 ^ 13) else mm.frame q := by
            intro q
            rw [mapPage_frame, Function.update_apply]
          rw [mapPages_cons, List.length_cons, List.take_succ_cons, List.map_cons,
            List.nodup_cons, List.forall_mem_cons]
          constructor
          · intro after
            have between : (mm.mapPage p f).FramesDistinct := by
              intro q r g hq hr
              exact after q r g (mapPages_frame_kept later hq) (mapPages_frame_kept later hr)
            obtain ⟨different, unused⟩ := (ih fs between later nodup).mp after
            refine ⟨⟨?_, different⟩, first.mp between, ?_⟩
            · intro member
              obtain ⟨g, inside, same⟩ := List.mem_map.mp member
              refine unused g inside p ?_
              rw [frame, if_pos rfl, same]
            · intro g member q holds
              refine unused g member q ?_
              rw [frame]
              split
              · rename_i here
                have empty : mm.frame q = none :=
                  pteFrame_absent (here ▸ absent p List.mem_cons_self)
                rw [empty] at holds
                cases holds
              · exact holds
          · rintro ⟨⟨once, different⟩, free, unused⟩
            refine (ih fs (first.mpr free) later nodup).mpr ⟨different, ?_⟩
            intro g member q
            rw [frame]
            split
            · intro same
              exact once (List.mem_map.mpr ⟨g, member, (Option.some.inj same).symm⟩)
            · exact unused g member q

/-- Frames given out once more and all the same distinct: there was no page left to give any
to, since the first of them has a holder already. -/
theorem unmapped_nil {mm : Mm} {range : List Pgn} {fs : List Nat} (nodup : range.Nodup)
    (used : ∀ f ∈ fs, ∃ p, mm.frame p = some (f % 2 ^ 13))
    (mapped : ∀ p ∈ range, PtePresent ((mm.mapPages (mm.unmapped range) fs).pgd p))
    (apart : (mm.mapPages (mm.unmapped range) fs).FramesDistinct) : mm.unmapped range = [] := by
  have idle : ∀ p ∈ mm.unmapped range, ¬ PtePresent (mm.pgd p) := fun p member =>
    (mem_unmapped.mp member).2
  have kept : mm.FramesDistinct := fun p q f hp hq =>
    apart p q f (mapPages_frame_kept idle hp) (mapPages_frame_kept idle hq)
  apply List.eq_nil_iff_forall_not_mem.mpr
  intro p member
  obtain ⟨q, others, waiting⟩ := List.exists_cons_of_ne_nil (List.ne_nil_of_mem member)
  cases fs with
  | nil =>
      have got := mapped p (mem_unmapped.mp member).1
      rw [mapPages_none] at got
      exact idle p member got
  | cons f rest =>
      obtain ⟨r, holds⟩ := used f List.mem_cons_self
      have given := (mapPages_distinct_iff _ kept idle (unmapped_nodup nodup)).mp apart
      refine given.2 f ?_ r holds
      rw [waiting]
      exact List.mem_cons_self

/-- Frames are taken for the pages `new` and then once more given out, in the other order,
to what is still unmapped of `range`: a page that gets one there has it from a page of `new`. -/
theorem mapPages_twice_iff {mm : Mm} {new range : List Pgn} {fs : List Nat}
    (distinct : mm.FramesDistinct) (nodup : new.Nodup) (nodup' : range.Nodup)
    (absent : ∀ p ∈ new, ¬ PtePresent (mm.pgd p)) (enough : new.length ≤ fs.length)
    {mapped after : Mm} (first : mm.mapPages new fs = mapped)
    (second : mapped.mapPages (mapped.unmapped range) (fs.take new.length).reverse = after) :
    ((∀ p ∈ range, PtePresent (after.pgd p)) ∧ after.FramesDistinct ∧
        ∀ p ∉ range, after.pgd p = mm.pgd p) ↔
      (∀ p, ¬ PtePresent (mm.pgd p) → (p ∈ new ↔ p ∈ range)) ∧
        ((fs.take new.length).map (· % 2 ^ 13)).Nodup ∧
        ∀ f ∈ fs.take new.length, ∀ p, mm.frame p ≠ some (f % 2 ^ 13) := by
  have present : ∀ p, PtePresent (mapped.pgd p) ↔ PtePresent (mm.pgd p) ∨ p ∈ new := by
    intro p
    rw [← first, mapPages_present, List.take_of_length_le enough]
  have split := mapPages_distinct_iff fs distinct absent nodup
  rw [first] at split
  constructor
  · rintro ⟨all, apart, outside⟩
    have none_left : mapped.unmapped range = [] := by
      rw [← second] at all apart
      refine unmapped_nil nodup' ?_ all apart
      -- the frames given out have their holders among the pages of `new`
      intro f member
      have used := List.mem_map_of_mem (f := (· % 2 ^ 13)) (List.mem_reverse.mp member)
      obtain ⟨p, _, holds⟩ := (mm.mapPages_holds fs nodup (f % 2 ^ 13)).mpr used
      rw [first] at holds
      exact ⟨p, holds⟩
    rw [none_left, mapPages_nil] at second
    subst second
    refine ⟨?_, split.mp apart⟩
    intro p gone
    constructor
    · intro asked
      by_contra elsewhere
      have mapped_now := (present p).mpr (.inr asked)
      rw [outside p elsewhere] at mapped_now
      exact gone mapped_now
    · intro inside
      exact ((present p).mp (all p inside)).resolve_left gone
  · rintro ⟨agree, frames⟩
    have none_left : mapped.unmapped range = [] := by
      apply List.eq_nil_iff_forall_not_mem.mpr
      intro p member
      obtain ⟨inside, gone⟩ := mem_unmapped.mp member
      rw [present, not_or] at gone
      exact gone.2 ((agree p gone.1).mpr inside)
    rw [none_left, mapPages_nil] at second
    subst second
    refine ⟨?_, split.mpr frames, ?_⟩
    · intro p inside
      rw [present]
      by_cases before : PtePresent (mm.pgd p)
      · exact .inl before
      · exact .inr ((agree p before).mpr inside)
    · intro p outside
      rw [← first]
      apply mapPages_pgd_other
      intro member
      exact outside ((agree p (absent p member)).mp member)

end Mm

/-- A range of pages given by its first address: it starts at or below the page that the
address falls in, and runs inside the page table. -/
theorem range_inside {mapstart : BitVec 32} {incpgnum : Nat}
    (inside : mapstart.toNat / pagingPageSz + incpgnum ≤ pagingMaxPgn) :
    (pagingPgn mapstart).val + incpgnum ≤ pagingMaxPgn := by
  have page : (pagingPgn mapstart).val = mapstart.toNat % 2 ^ 22 / 2 ^ 8 :=
    getVal_toNat mapstart (by decide)
  have := Nat.div_le_div_right (c := 2 ^ 8) (Nat.mod_le mapstart.toNat (2 ^ 22))
  simp only [pagingPageSz] at inside
  omega

/-- The pages that a mapping point and a number of pages stand for. -/
def InRange (mapstart : BitVec 32) (incpgnum : Nat) (p : Pgn) : Prop :=
  mapstart.toNat / pagingPageSz ≤ p.val ∧ p.val < mapstart.toNat / pagingPageSz + incpgnum

instance (mapstart : BitVec 32) (incpgnum : Nat) : DecidablePred (InRange mapstart incpgnum) :=
  fun _ => inferInstanceAs (Decidable (_ ∧ _))

theorem inRange_iff {mapstart : BitVec 32} {incpgnum : Nat}
    (inside : mapstart.toNat / pagingPageSz + incpgnum ≤ pagingMaxPgn) (p : Pgn) :
    InRange mapstart incpgnum p ↔
      p ∈ pages (pagingPgn mapstart).val incpgnum (range_inside inside) := by
  have page : (pagingPgn mapstart).val = mapstart.toNat % 2 ^ 22 / 2 ^ 8 :=
    getVal_toNat mapstart (by decide)
  have few : pagingMaxPgn = 2 ^ 14 := rfl
  rw [mem_pages, InRange, page]
  simp only [pagingPageSz] at inside ⊢
  omega

namespace Caller

def vmMapRam (c : Caller) (mapstart : BitVec 32) (incpgnum : Nat)
    (inside : (pagingPgn mapstart).val + incpgnum ≤ pagingMaxPgn) : Bool × Caller :=
  match c.allocPagesRange incpgnum (incpgnum_inside inside) [] with
  | (false, _, c) => (false, c)
  | (true, frmLst, c) =>
      (true, { c with mm := (c.mm.vmapPageRange mapstart incpgnum inside frmLst).2 })

theorem vmMapRam_eq (c : Caller) (mapstart : BitVec 32) (incpgnum : Nat)
    (inside : (pagingPgn mapstart).val + incpgnum ≤ pagingMaxPgn) {new : List Pgn}
    (h : c.requested incpgnum (incpgnum_inside inside) = new) {mapped : Mm}
    (first : c.mm.mapPages new c.mram.freeFpList = mapped) :
    (c.vmMapRam mapstart incpgnum inside).1 =
        decide (new.length ≤ c.mram.freeFpList.length) ∧
      (new.length ≤ c.mram.freeFpList.length → (c.vmMapRam mapstart incpgnum inside).2.mm =
        mapped.mapPages (mapped.unmapped (pages (pagingPgn mapstart).val incpgnum inside))
          (c.mram.freeFpList.take new.length).reverse) := by
  unfold vmMapRam
  rw [allocPagesRange_eq, h, first]
  by_cases enough : new.length ≤ c.mram.freeFpList.length
  · simp only [enough, decide_true, forall_const, true_and, List.append_nil]
    exact Mm.vmapLoop_eq _ mapped
  · simp [enough]

/-- vm_map_ram maps what it reports: where it returns 0, the pages of the range are present,
the frames are still distinct and no other page has changed. -/
def MapsRange (c : Caller) (mapstart : BitVec 32) (incpgnum : Nat)
    (inside : mapstart.toNat / pagingPageSz + incpgnum ≤ pagingMaxPgn) : Prop :=
  (c.vmMapRam mapstart incpgnum (range_inside inside)).1 = true →
    (∀ p, InRange mapstart incpgnum p →
      PtePresent ((c.vmMapRam mapstart incpgnum (range_inside inside)).2.mm.pgd p)) ∧
    (c.vmMapRam mapstart incpgnum (range_inside inside)).2.mm.FramesDistinct ∧
    ∀ p, ¬ InRange mapstart incpgnum p →
      (c.vmMapRam mapstart incpgnum (range_inside inside)).2.mm.pgd p = c.mm.pgd p

/-- The free frames that alloc_pages_range takes. -/
def due (c : Caller) (reqPgnum : Nat) (inside : reqPgnum ≤ pagingMaxPgn) : List Nat :=
  c.mram.freeFpList.take (c.requested reqPgnum inside).length

/-- The unmapped pages among the first `incpgnum` and those of the range are the same, and
the frames due for them differ, modulo 2^13, from one another and from the frames of the
resident pages. -/
def MapsInPlace (c : Caller) (mapstart : BitVec 32) (incpgnum : Nat)
    (inside : incpgnum ≤ pagingMaxPgn) : Prop :=
  (∀ p, ¬ PtePresent (c.mm.pgd p) → (p.val < incpgnum ↔ InRange mapstart incpgnum p)) ∧
    ((c.due incpgnum inside).map (· % 2 ^ 13)).Nodup ∧
    ∀ f ∈ c.due incpgnum inside, ∀ p, c.mm.frame p ≠ some (f % 2 ^ 13)

/-- vm_map_ram maps what it reports exactly where it runs out of frames, and so returns -1,
or where the range it maps is, page for page that needs a frame, the one it takes frames for. -/
theorem mapsRange_iff {c : Caller} (distinct : c.mm.FramesDistinct) {mapstart : BitVec 32}
    {incpgnum : Nat} (inside : mapstart.toNat / pagingPageSz + incpgnum ≤ pagingMaxPgn) :
    c.MapsRange mapstart incpgnum inside ↔
      c.mram.freeFpList.length <
          (c.requested incpgnum (incpgnum_inside inside)).length ∨
        c.MapsInPlace mapstart incpgnum (incpgnum_inside inside) := by
  obtain ⟨returned, mapped⟩ := c.vmMapRam_eq mapstart incpgnum (range_inside inside) rfl rfl
  unfold MapsRange
  rw [returned, decide_eq_true_iff]
  by_cases enough : (c.requested incpgnum (incpgnum_inside inside)).length ≤
      c.mram.freeFpList.length
  · rw [or_iff_right (not_lt.mpr enough), imp_iff_right enough]
    have nodup : (pages (pagingPgn mapstart).val incpgnum (range_inside inside)).Nodup :=
      pages_nodup
    have twice := Mm.mapPages_twice_iff distinct requested_nodup nodup
      (fun p member => (mem_requested.mp member).2) enough rfl (mapped enough).symm
    simp only [← inRange_iff inside] at twice
    refine twice.trans (and_congr_left fun _ => forall_congr' fun p => ?_)
    refine imp_congr_right fun gone => ?_
    rw [mem_requested, and_iff_left gone]
  · exact ⟨fun _ => .inl (not_le.mp enough), fun _ through => absurd through enough⟩

/-- A process with an empty page table, on a RAM of two free frames. -/
def unmappedCaller : Caller where
  mm := Mm.init
  mram := ⟨fun _ => 0, 512, true, [0, 1]⟩
  activeMswp := ⟨fun _ => 0, 512, true, [0, 1]⟩

theorem unmappedCaller_distinct : unmappedCaller.mm.FramesDistinct := by
  intro p q fpn holds
  cases (Mm.init_frame p).symm.trans holds

/-- Two pages from page 0 on. -/
theorem mapsRange_iff_unmapped : unmappedCaller.MapsRange 0 2 (by decide) := by
  refine (mapsRange_iff unmappedCaller_distinct (by decide)).mpr (.inr ⟨?_, by decide +kernel, ?_⟩)
  · intro p _
    simp [InRange]
  · intro f _ p holds
    cases (Mm.init_frame p).symm.trans holds

/-- One page from page 1 on: page 0 is mapped as well, to the frame page 1 is given. -/
theorem other_page_mapped : ¬ ∀ c : Caller, c.mm.FramesDistinct → ∀ mapstart incpgnum inside,
    c.MapsRange mapstart incpgnum inside := by
  intro claim
  have maps := claim unmappedCaller unmappedCaller_distinct 256 1 (by decide)
  obtain ⟨_, _, outside⟩ := maps (by decide +kernel)
  exact absurd (outside 0 (by decide)) (by decide +kernel)

end Caller
end OsSim
