import Mathlib.Data.List.Nodup
import OsSim.Paging

/-! alloc_pages_range and vmap_page_range as what they do to the page table in all: the
unmapped pages of their range are given frames, in order, as long as there are frames. -/
namespace OsSim

theorem from_zero {reqPgnum : Nat} (inside : reqPgnum ≤ pagingMaxPgn) :
    0 + reqPgnum ≤ pagingMaxPgn := by omega

theorem reqPgnum_inside (reqPgnum : Fin (pagingMaxPgn + 1)) : reqPgnum.val ≤ pagingMaxPgn :=
  Nat.le_of_lt_succ reqPgnum.isLt

theorem incpgnum_inside {pgn incpgnum : Nat} (inside : pgn + incpgnum ≤ pagingMaxPgn) :
    incpgnum ≤ pagingMaxPgn := by omega

/-- The `left` pages from `pgit` on, which a loop over a range visits. -/
def pages (pgit : Nat) : (left : Nat) → pgit + left ≤ pagingMaxPgn → List Pgn
  | 0, _ => []
  | left + 1, inside =>
      ⟨pgit, page_inside inside⟩ :: pages (pgit + 1) left (next_inside inside)

theorem mem_pages {left pgit : Nat} {inside : pgit + left ≤ pagingMaxPgn} {p : Pgn} :
    p ∈ pages pgit left inside ↔ pgit ≤ p.val ∧ p.val < pgit + left := by
  induction left generalizing pgit with
  | zero =>
      simp only [pages, List.not_mem_nil, false_iff]
      omega
  | succ left ih =>
      rw [pages, List.mem_cons, ih, Fin.ext_iff]
      dsimp only
      omega

theorem pages_nodup {left pgit : Nat} {inside : pgit + left ≤ pagingMaxPgn} :
    (pages pgit left inside).Nodup := by
  induction left generalizing pgit with
  | zero => exact List.nodup_nil
  | succ left ih =>
      refine List.nodup_cons.mpr ⟨?_, ih⟩
      intro member
      exact absurd (mem_pages.mp member).1 (Nat.not_succ_le_self pgit)

namespace Mm

/-- The pages of the list whose entries are not present. -/
def unmapped (mm : Mm) (ps : List Pgn) : List Pgn := ps.filter fun p => ¬ PtePresent (mm.pgd p)

/-- A page is given a frame: pte_set_fpn and enlist_pgn_node. -/
def mapPage (mm : Mm) (pgn : Pgn) (fpn : Nat) : Mm :=
  (mm.setPte pgn (pteSetFpn (mm.pgd pgn) fpn)).enlistPgnNode pgn

/-- The pages are given the frames one by one, as long as there are both. -/
def mapPages (mm : Mm) : List Pgn → List Nat → Mm
  | pgn :: ps, fpn :: fs => (mm.mapPage pgn fpn).mapPages ps fs
  | _, _ => mm

theorem mem_unmapped {mm : Mm} {ps : List Pgn} {p : Pgn} :
    p ∈ mm.unmapped ps ↔ p ∈ ps ∧ ¬ PtePresent (mm.pgd p) := by
  simp [unmapped]

theorem unmapped_nodup {mm : Mm} {ps : List Pgn} (nodup : ps.Nodup) : (mm.unmapped ps).Nodup :=
  nodup.filter _

theorem mapPage_pgd (mm : Mm) (pgn : Pgn) (fpn : Nat) (p : Pgn) :
    (mm.mapPage pgn fpn).pgd p = if p = pgn then pteSetFpn (mm.pgd pgn) fpn else mm.pgd p :=
  mm.setPte_pgd pgn p _

theorem mapPage_present (mm : Mm) (pgn : Pgn) (fpn : Nat) (p : Pgn) :
    PtePresent ((mm.mapPage pgn fpn).pgd p) ↔ PtePresent (mm.pgd p) ∨ p = pgn :=
  mm.setPte_present pgn (pteSetFpn_present _ _) p

theorem mapPage_frame (mm : Mm) (pgn : Pgn) (fpn : Nat) :
    (mm.mapPage pgn fpn).frame = Function.update mm.frame pgn (some (fpn % 2 ^ 13)) :=
  (mm.setPte_frame pgn _).trans (by rw [pteSetFpn_frame])

theorem unmapped_congr (mm : Mm) {mm' : Mm} {ps : List Pgn}
    (same : ∀ p ∈ ps, mm'.pgd p = mm.pgd p) :
    mm'.unmapped ps = mm.unmapped ps := by
  apply List.filter_congr
  intro p member
  rw [same p member]

theorem unmapped_present {mm : Mm} {p : Pgn} (ps : List Pgn) (present : PtePresent (mm.pgd p)) :
    mm.unmapped (p :: ps) = mm.unmapped ps :=
  List.filter_cons_of_neg (by simpa using present)

theorem unmapped_absent {mm : Mm} {p : Pgn} (ps : List Pgn) (absent : ¬ PtePresent (mm.pgd p)) :
    mm.unmapped (p :: ps) = p :: mm.unmapped ps :=
  List.filter_cons_of_pos (by simpa using absent)

/-- A loop that maps a page finds those behind it as they were. -/
theorem unmapped_mapPage (mm : Mm) {pgit left : Nat} (inside : pgit + (left + 1) ≤ pagingMaxPgn)
    (fpn : Nat) : (mm.mapPage ⟨pgit, page_inside inside⟩ fpn).unmapped
      (pages (pgit + 1) left (next_inside inside)) =
        mm.unmapped (pages (pgit + 1) left (next_inside inside)) := by
  apply mm.unmapped_congr
  intro p member
  refine (mapPage_pgd _ _ _ _).trans (if_neg ?_)
  rintro rfl
  exact absurd (mem_pages.mp member).1 (Nat.not_succ_le_self pgit)

@[simp] theorem mapPages_nil (mm : Mm) (fs : List Nat) : mm.mapPages [] fs = mm := by
  unfold mapPages
  rfl

@[simp] theorem mapPages_none (mm : Mm) (ps : List Pgn) : mm.mapPages ps [] = mm := by
  cases ps with
  | nil => exact mapPages_nil mm []
  | cons p ps =>
      unfold mapPages
      rfl

@[simp] theorem mapPages_cons (mm : Mm) (p : Pgn) (ps : List Pgn) (f : Nat) (fs : List Nat) :
    mm.mapPages (p :: ps) (f :: fs) = (mm.mapPage p f).mapPages ps fs := by
  conv_lhs => unfold mapPages

/-- The rule for a loop that maps pages: what giving one unmapped page its frame keeps,
with the frames that are left, holds in the end. -/
theorem mapPages_invariant {P : Mm → List Nat → Prop}
    (keep : ∀ mm pgn fpn fs, ¬ PtePresent (mm.pgd pgn) → P mm (fpn :: fs) →
      P (mm.mapPage pgn fpn) fs)
    {mm : Mm} {ps : List Pgn} {fs : List Nat} (absent : ∀ p ∈ ps, ¬ PtePresent (mm.pgd p))
    (nodup : ps.Nodup) (holds : P mm fs) : P (mm.mapPages ps fs) (fs.drop ps.length) := by
  induction ps generalizing mm fs with
  | nil => simpa using holds
  | cons p ps ih =>
      obtain ⟨other, nodup⟩ := List.nodup_cons.mp nodup
      cases fs with
      | nil => simpa using holds
      | cons f fs =>
          rw [mapPages_cons, List.length_cons, List.drop_succ_cons]
          refine ih ?_ nodup (keep mm p f fs (absent p List.mem_cons_self) holds)
          intro q member
          rw [mapPage_present]
          rintro (present | rfl)
          · exact absent q (List.mem_cons_of_mem p member) present
          · exact other member

theorem mapPages_pgd_other {mm : Mm} {ps : List Pgn} {fs : List Nat} {q : Pgn}
    (other : q ∉ ps) : (mm.mapPages ps fs).pgd q = mm.pgd q := by
  induction ps generalizing mm fs with
  | nil => rw [mapPages_nil]
  | cons p ps ih =>
      rw [List.mem_cons, not_or] at other
      cases fs with
      | nil => rw [mapPages_none]
      | cons f fs => rw [mapPages_cons, ih other.2, mapPage_pgd, if_neg other.1]

theorem mapPages_present {mm : Mm} {ps : List Pgn} {fs : List Nat} (q : Pgn) :
    PtePresent ((mm.mapPages ps fs).pgd q) ↔
      PtePresent (mm.pgd q) ∨ q ∈ ps.take fs.length := by
  induction ps generalizing mm fs with
  | nil => simp
  | cons p ps ih =>
      cases fs with
      | nil => simp
      | cons f fs =>
          rw [mapPages_cons, ih, mapPage_present, List.length_cons, List.take_succ_cons,
            List.mem_cons, or_assoc]

/-- The page mapped first keeps its frame. -/
theorem mapPages_frame_first (mm : Mm) {p : Pgn} {ps : List Pgn} (other : p ∉ ps) (f : Nat)
    (fs : List Nat) : ((mm.mapPage p f).mapPages ps fs).frame p = some (f % 2 ^ 13) := by
  rw [frame, mapPages_pgd_other other, ← frame, mapPage_frame, Function.update_self]

/-- The frames of the newly mapped pages are the frames that were used. -/
theorem mapPages_holds (mm : Mm) {ps : List Pgn} (fs : List Nat) (nodup : ps.Nodup) (f : Nat) :
    (∃ p ∈ ps.take fs.length, (mm.mapPages ps fs).frame p = some f) ↔
      f ∈ (fs.take ps.length).map (· % 2 ^ 13) := by
  induction ps generalizing mm fs with
  | nil => simp
  | cons p ps ih =>
      obtain ⟨other, nodup⟩ := List.nodup_cons.mp nodup
      cases fs with
      | nil => simp
      | cons g fs =>
          have first := mm.mapPages_frame_first other g fs
          simp only [mapPages_cons, List.length_cons, List.take_succ_cons, List.map_cons,
            List.mem_cons, exists_eq_or_imp, first, Option.some.injEq, ih _ _ nodup]
          exact or_congr_left eq_comm

/-- Where there are frames for all of them, the pages get the leading ones in order. -/
theorem mapPages_frames (mm : Mm) {ps : List Pgn} {fs : List Nat} (nodup : ps.Nodup)
    (enough : ps.length ≤ fs.length) : ps.map (mm.mapPages ps fs).frame =
      (fs.take ps.length).map fun f => some (f % 2 ^ 13) := by
  induction ps generalizing mm fs with
  | nil => rfl
  | cons p ps ih =>
      obtain ⟨other, nodup⟩ := List.nodup_cons.mp nodup
      cases fs with
      | nil => exact absurd enough (Nat.not_succ_le_zero _)
      | cons f fs =>
          rw [mapPages_cons, List.map_cons, mm.mapPages_frame_first other,
            ih _ nodup (Nat.le_of_succ_le_succ enough)]
          rfl

theorem mapPages_fifo (mm : Mm) (ps : List Pgn) (fs : List Nat) :
    (mm.mapPages ps fs).fifoPgn = (ps.take fs.length).reverse ++ mm.fifoPgn := by
  induction ps generalizing mm fs with
  | nil => simp
  | cons p ps ih =>
      cases fs with
      | nil => simp
      | cons f fs =>
          rw [mapPages_cons, ih, List.length_cons, List.take_succ_cons, List.reverse_cons,
            List.append_assoc]
          rfl

end Mm

namespace Caller

/-- What alloc_pages_range comes to, by induction on the pages left. -/
theorem allocLoop_eq {left pgit : Nat} {inside : pgit + left ≤ pagingMaxPgn}
    (frmLst : List Nat) (c : Caller) {new : List Pgn}
    (h : c.mm.unmapped (pages pgit left inside) = new) :
    allocLoop pgit left inside frmLst c =
      (decide (new.length ≤ c.mram.freeFpList.length),
        (c.mram.freeFpList.take new.length).reverse ++ frmLst,
        { c with
          mm := c.mm.mapPages new c.mram.freeFpList
          mram := { c.mram with freeFpList := c.mram.freeFpList.drop new.length } }) := by
  induction left generalizing pgit frmLst c new with
  | zero =>
      obtain rfl : [] = new := h
      simp [allocLoop]
  | succ left ih =>
      unfold allocLoop
      simp only
      rw [pages] at h
      split
      · rename_i present
        rw [Mm.unmapped_present _ present] at h
        exact ih frmLst c h
      · rename_i absent
        rw [Mm.unmapped_absent _ absent] at h
        subst h
        cases free : c.mram.freeFpList with
        | nil =>
            obtain ⟨mm, ⟨storage, maxsz, rdmflg, _⟩, _⟩ := c
            obtain rfl : _ = [] := free
            simp [Memphy.getFreefp]
        | cons fpn rest =>
            have present : PtePresent ((c.mm.setPte ⟨pgit, page_inside inside⟩ (pteSetFpn
                (c.mm.pgd ⟨pgit, page_inside inside⟩) fpn)).pgd ⟨pgit, page_inside inside⟩) :=
              (Mm.setPte_present _ _ (pteSetFpn_present _ _) _).mpr (.inr rfl)
            simp only [Memphy.getFreefp, free]
            rw [if_pos present]
            refine (ih _ _ (c.mm.unmapped_mapPage inside fpn)).trans ?_
            simp [Mm.mapPage]

/-- The pages alloc_pages_range has to find frames for. -/
def requested (c : Caller) (reqPgnum : Nat) (inside : reqPgnum ≤ pagingMaxPgn) : List Pgn :=
  c.mm.unmapped (pages 0 reqPgnum (from_zero inside))

theorem allocPagesRange_eq (c : Caller) (reqPgnum : Nat) (inside : reqPgnum ≤ pagingMaxPgn)
    (frmLst : List Nat) :
    c.allocPagesRange reqPgnum inside frmLst =
      (decide ((c.requested reqPgnum inside).length ≤ c.mram.freeFpList.length),
        (c.mram.freeFpList.take (c.requested reqPgnum inside).length).reverse ++ frmLst,
        { c with
          mm := c.mm.mapPages (c.requested reqPgnum inside) c.mram.freeFpList
          mram := { c.mram with
            freeFpList := c.mram.freeFpList.drop (c.requested reqPgnum inside).length } }) :=
  allocLoop_eq frmLst c rfl

theorem mem_requested {c : Caller} {reqPgnum : Nat} {inside : reqPgnum ≤ pagingMaxPgn} {p : Pgn} :
    p ∈ c.requested reqPgnum inside ↔ p.val < reqPgnum ∧ ¬ PtePresent (c.mm.pgd p) := by
  rw [requested, Mm.mem_unmapped, mem_pages, Nat.zero_add]
  exact and_congr_left fun _ => and_iff_right (Nat.zero_le _)

theorem requested_nodup {c : Caller} {reqPgnum : Nat} {inside : reqPgnum ≤ pagingMaxPgn} :
    (c.requested reqPgnum inside).Nodup :=
  Mm.unmapped_nodup pages_nodup

end Caller
end OsSim
