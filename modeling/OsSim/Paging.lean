import Mathlib.Logic.Function.Basic
import OsSim.Pte

/-! mm-memphy.c, and the paging of mm.c and mm-vm.c: page frames of a RAM device, page
tables, the FIFO list of victims and pg_getpage. -/
namespace OsSim

/-- `struct memphy_struct`. -/
structure Memphy where
  storage : Nat → BitVec 8
  maxsz : Nat
  rdmflg : Bool
  freeFpList : List Nat

namespace Memphy

/-- MEMPHY_format on a device of at least one frame. -/
def format (mp : Memphy) : Memphy :=
  { mp with freeFpList := List.range (mp.maxsz / pagingPageSz) }

def getFreefp (mp : Memphy) : Option (Nat × Memphy) :=
  match mp.freeFpList with
  | [] => none
  | fpn :: rest => some (fpn, { mp with freeFpList := rest })

/-- MEMPHY_read; a sequential device refuses every access. Neither this nor MEMPHY_write looks at
`maxsz`, and a cell past the end counts as one of the device here. -/
def read (mp : Memphy) (addr : Nat) : Option (BitVec 8) :=
  if mp.rdmflg then some (mp.storage addr) else none

def write (mp : Memphy) (addr : Nat) (data : BitVec 8) : Option Memphy :=
  if mp.rdmflg then some { mp with storage := Function.update mp.storage addr data } else none

/-- One round of `__swap_cp_page`, which ignores what the devices return; where the read is
refused the byte written is an indeterminate one, here 0. -/
def copyCell (mpsrc : Memphy) (addrsrc addrdst : Nat) (mpdst : Memphy) : Memphy :=
  (mpdst.write addrdst ((mpsrc.read addrsrc).getD 0)).getD mpdst

def swapCpPage (mpsrc : Memphy) (srcfpn : Nat) (mpdst : Memphy) (dstfpn : Nat) : Memphy :=
  (List.range pagingPageSz).foldl (fun mpdst cellidx => copyCell mpsrc
    (srcfpn * pagingPageSz + cellidx) (dstfpn * pagingPageSz + cellidx) mpdst) mpdst

end Memphy

/-- The part of `struct mm_struct` that paging uses: page table and FIFO list, newest first. -/
structure Mm where
  pgd : Pgn → BitVec 32
  fifoPgn : List Pgn

/-- The process a call is made for, with the two devices it is given. -/
structure Caller where
  mm : Mm
  mram : Memphy
  activeMswp : Memphy

namespace Mm

def init : Mm := ⟨fun _ => 0, []⟩

def enlistPgnNode (mm : Mm) (pgn : Pgn) : Mm := { mm with fifoPgn := pgn :: mm.fifoPgn }

def setPte (mm : Mm) (pgn : Pgn) (pte : BitVec 32) : Mm :=
  { mm with pgd := Function.update mm.pgd pgn pte }

/-- find_victim_page takes out the last node of the list, the page enlisted first. -/
def findVictimPage (mm : Mm) : Option (Pgn × Mm) :=
  mm.fifoPgn.getLast?.map fun pgn => (pgn, { mm with fifoPgn := mm.fifoPgn.dropLast })

/-- What pg_getpage does to the page table for a fault: the victim's entry says swapped
out, the page gets the victim's page number for its frame and joins the list. -/
def replace (mm : Mm) (vicpgn pgn : Pgn) (swpfpn : Nat) : Mm :=
  let mm := mm.setPte vicpgn (pteSetSwap (mm.pgd vicpgn) pagingPteSwappedMask swpfpn)
  let mm := mm.setPte pgn (setBit (pteSetFpn (mm.pgd pgn) vicpgn) pagingPtePresentMask)
  mm.enlistPgnNode pgn

def frame (mm : Mm) (pgn : Pgn) : Option Nat := pteFrame (mm.pgd pgn)

/-- The resident pages sit in frames of their own. -/
def FramesDistinct (mm : Mm) : Prop :=
  ∀ p q fpn, mm.frame p = some fpn → mm.frame q = some fpn → p = q

theorem init_frame (p : Pgn) : init.frame p = none := by
  have empty : pteFrame 0 = none := by decide
  exact empty

theorem setPte_frame (mm : Mm) (pgn : Pgn) (pte : BitVec 32) :
    (mm.setPte pgn pte).frame = Function.update mm.frame pgn (pteFrame pte) := by
  funext p
  simp only [frame, setPte, Function.update_apply]
  split <;> rfl

theorem setPte_pgd (mm : Mm) (pgn p : Pgn) (pte : BitVec 32) :
    (mm.setPte pgn pte).pgd p = if p = pgn then pte else mm.pgd p :=
  Function.update_apply mm.pgd pgn pte p

theorem setPte_present (mm : Mm) (pgn : Pgn) {pte : BitVec 32} (present : PtePresent pte)
    (p : Pgn) : PtePresent ((mm.setPte pgn pte).pgd p) ↔ PtePresent (mm.pgd p) ∨ p = pgn := by
  rw [setPte_pgd]
  split
  · exact ⟨fun _ => .inr ‹_›, fun _ => present⟩
  · exact (or_iff_left ‹_›).symm

theorem replace_frame (mm : Mm) (vicpgn pgn : Pgn) (swpfpn : Nat) :
    (mm.replace vicpgn pgn swpfpn).frame =
      Function.update (Function.update mm.frame vicpgn none) pgn (some (vicpgn % 2 ^ 13)) := by
  change ((mm.setPte vicpgn _).setPte pgn _).frame = _
  rw [setBit_pteSetFpn, setPte_frame, setPte_frame, pteSetFpn_frame, pteSetSwap_frame]

theorem replace_present (mm : Mm) (vicpgn pgn : Pgn) (swpfpn : Nat) (p : Pgn) :
    PtePresent ((mm.replace vicpgn pgn swpfpn).pgd p) ↔
      PtePresent (mm.pgd p) ∨ p = vicpgn ∨ p = pgn := by
  change PtePresent (((mm.setPte vicpgn _).setPte pgn _).pgd p) ↔ _
  rw [setBit_pteSetFpn, setPte_present _ _ (pteSetFpn_present _ _),
    setPte_present _ _ (pteSetSwap_present _ _ _), or_assoc]

theorem replace_fpn (mm : Mm) (vicpgn pgn : Pgn) (swpfpn : Nat) :
    pteFpn ((mm.replace vicpgn pgn swpfpn).pgd pgn) = vicpgn % 2 ^ 13 := by
  change pteFpn (((mm.setPte vicpgn _).setPte pgn _).pgd pgn) = _
  rw [setBit_pteSetFpn, setPte_pgd, if_pos rfl, pteSetFpn_fpn]

end Mm

theorem page_inside {pgit left n : Nat} (inside : pgit + (left + 1) ≤ n) : pgit < n := by omega

theorem next_inside {pgit left n : Nat} (inside : pgit + (left + 1) ≤ n) :
    pgit + 1 + left ≤ n := by omega

namespace Caller

/-- pg_getpage. A page that is not present is given the number of the victim page as its
frame; one that is present is taken to be in RAM, swapped out or not. -/
def pgGetpage (c : Caller) (pgn : Pgn) : Option Nat × Caller :=
  if PtePresent (c.mm.pgd pgn) then (some (pteFpn (c.mm.pgd pgn)), c)
  else
    match c.mm.findVictimPage with
    | none => (none, c)
    | some (vicpgn, mm) =>
        match c.activeMswp.getFreefp with
        | none => (none, { c with mm })
        | some (swpfpn, mswp) =>
            let mswp := Memphy.swapCpPage c.mram vicpgn mswp swpfpn
            let mm := mm.replace vicpgn pgn swpfpn
            (some (pteFpn (mm.pgd pgn)), { c with mm, activeMswp := mswp })

def phyaddr (fpn off : Nat) : Nat := (fpn <<< 8) + off

def pgGetval (c : Caller) (addr : BitVec 32) : Option (BitVec 8) × Caller :=
  match c.pgGetpage (pagingPgn addr) with
  | (none, c) => (none, c)
  | (some fpn, c) => (c.mram.read (phyaddr fpn (pagingOffst addr)), c)

def pgSetval (c : Caller) (addr : BitVec 32) (value : BitVec 8) : Bool × Caller :=
  match c.pgGetpage (pagingPgn addr) with
  | (none, c) => (false, c)
  | (some fpn, c) =>
      match c.mram.write (phyaddr fpn (pagingOffst addr)) value with
      | none => (false, c)
      | some mram => (true, { c with mram })

/-- The loop of alloc_pages_range from page `pgit` on, with the pages left. -/
def allocLoop (pgit : Nat) : (left : Nat) → pgit + left ≤ pagingMaxPgn → List Nat → Caller →
    Bool × List Nat × Caller
  | 0, _, frmLst, c => (true, frmLst, c)
  | left + 1, inside, frmLst, c =>
      let pgn : Pgn := ⟨pgit, page_inside inside⟩
      if PtePresent (c.mm.pgd pgn) then allocLoop (pgit + 1) left (next_inside inside) frmLst c
      else
        match c.mram.getFreefp with
        | none => (false, frmLst, c)
        | some (fpn, mram) =>
            let mm := c.mm.setPte pgn (pteSetFpn (c.mm.pgd pgn) fpn)
            if PtePresent (mm.pgd pgn) then
              allocLoop (pgit + 1) left (next_inside inside) (fpn :: frmLst)
                { c with mm := mm.enlistPgnNode pgn, mram }
            else (false, fpn :: frmLst, { c with mm, mram })

/-- alloc_pages_range: whether it returned 0, and the list of the frames it took. -/
def allocPagesRange (c : Caller) (reqPgnum : Nat) (inside : reqPgnum ≤ pagingMaxPgn)
    (frmLst : List Nat) : Bool × List Nat × Caller :=
  allocLoop 0 reqPgnum ((Nat.zero_add _).trans_le inside) frmLst c

/-- Everything pg_getpage can do, with what it asks of the state before. -/
inductive GetPage (c : Caller) (pgn : Pgn) : Option Nat → Caller → Prop
  | hit : PtePresent (c.mm.pgd pgn) → GetPage c pgn (some (pteFpn (c.mm.pgd pgn))) c
  | noVictim : ¬ PtePresent (c.mm.pgd pgn) → c.mm.fifoPgn = [] → GetPage c pgn none c
  | noSwap {vicpgn rest} : ¬ PtePresent (c.mm.pgd pgn) → c.mm.fifoPgn = rest ++ [vicpgn] →
      c.activeMswp.freeFpList = [] →
      GetPage c pgn none { c with mm := { c.mm with fifoPgn := rest } }
  | fault {vicpgn rest c'} : ¬ PtePresent (c.mm.pgd pgn) → c.mm.fifoPgn = rest ++ [vicpgn] →
      c.activeMswp.freeFpList ≠ [] → c'.mram = c.mram → c'.mm.fifoPgn = pgn :: rest →
      c'.mm.frame = Function.update (Function.update c.mm.frame vicpgn none) pgn
        (some (vicpgn % 2 ^ 13)) →
      (∀ p, PtePresent (c'.mm.pgd p) ↔ PtePresent (c.mm.pgd p) ∨ p = vicpgn ∨ p = pgn) →
      GetPage c pgn (some (vicpgn % 2 ^ 13)) c'

theorem pgGetpage_spec (c : Caller) (pgn : Pgn) :
    GetPage c pgn (c.pgGetpage pgn).1 (c.pgGetpage pgn).2 := by
  unfold pgGetpage Mm.findVictimPage
  split
  · exact .hit ‹_›
  · rename_i absent
    rcases List.eq_nil_or_concat c.mm.fifoPgn with nil | ⟨rest, vicpgn, fifo⟩
    · rw [nil]
      exact .noVictim absent nil
    · rw [List.concat_eq_append] at fifo
      simp only [fifo, List.getLast?_append, List.getLast?_singleton, List.dropLast_concat,
        Option.some_or, Option.map_some]
      unfold Memphy.getFreefp
      split
      · rename_i full
        split at full
        · rename_i none
          exact .noSwap absent fifo none
        · cases full
      · rename_i taken
        split at taken
        · cases taken
        · rename_i room
          obtain ⟨rfl, rfl⟩ := Prod.mk.inj (Option.some.inj taken)
          rw [Mm.replace_fpn]
          exact .fault absent fifo (by rw [room]; nofun) rfl rfl (Mm.replace_frame _ _ _ _)
            (Mm.replace_present _ _ _ _)

end Caller
end OsSim
