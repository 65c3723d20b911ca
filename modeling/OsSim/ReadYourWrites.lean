import Mathlib.Data.List.Nodup
import OsSim.Paging
import OsSim.Possession
import OsSim.Transition

/-! What a process reads back through paging. The content of a page follows it only while
the page stays in RAM: an entry that says swapped out is never followed to the swap device,
and a victim's frame is looked for under its page number. -/
namespace OsSim
open Transition Possession

/-- One call for the process; the page table bounds the number of pages asked for. -/
inductive VmOp where
  | alloc (reqPgnum : Fin (pagingMaxPgn + 1))
  | setval (addr : BitVec 32) (value : BitVec 8)
  | getval (addr : BitVec 32)

def SameAddress (a b : BitVec 32) : Prop :=
  a.setWidth pagingCpuBusWidth = b.setWidth pagingCpuBusWidth

instance (a b : BitVec 32) : Decidable (SameAddress a b) := inferInstanceAs (Decidable (_ = _))

/-- The abstract memory: what a call makes of the values last written. -/
def record (m : BitVec 32 → Option (BitVec 8)) : VmOp → BitVec 32 → Option (BitVec 8)
  | .setval a value => fun b => if SameAddress a b then some value else m b
  | .alloc _ | .getval _ => m

def written (ops : List VmOp) : BitVec 32 → Option (BitVec 8) := ops.foldl record fun _ => none

/-- The pages from `pgit` on, out of `left`, whose entries are not present. -/
def Mm.absent (mm : Mm) (pgit : Nat) : (left : Nat) → pgit + left ≤ pagingMaxPgn → Nat
  | 0, _ => 0
  | left + 1, inside =>
      (if PtePresent (mm.pgd ⟨pgit, page_inside inside⟩) then 0 else 1) +
        mm.absent (pgit + 1) left (next_inside inside)

namespace Caller

def step (c : Caller) : VmOp → Option Caller
  | .alloc reqPgnum =>
      match c.allocPagesRange reqPgnum (Nat.le_of_lt_succ reqPgnum.isLt) [] with
      | (true, _, c) => some c
      | (false, _, _) => none
  | .setval addr value =>
      match c.pgSetval addr value with
      | (true, c) => some c
      | (false, _) => none
  | .getval addr =>
      match c.pgGetval addr with
      | (some _, c) => some c
      | (none, _) => none

/-- A process with an empty page table on two freshly formatted devices. -/
def fresh (mram mswp : Memphy) : Caller := ⟨Mm.init, mram.format, mswp.format⟩

/-- Each pg_getval of the run that succeeds returns the latest value written there. -/
def ReadsBack (c : Caller) (ops : List VmOp) : Prop :=
  ∀ before addr after c' data, ops = before ++ .getval addr :: after →
    run step c before = some c' → (c'.pgGetval addr).1 = some data →
    ∀ value, written before addr = some value → data = value

/-- The page has not been swapped out, and if it is not present the victim sits in the
frame of its own number. -/
def SoundAccess (c : Caller) (pgn : Pgn) : Prop :=
  ¬ PteSwapped (c.mm.pgd pgn) ∧ (¬ PtePresent (c.mm.pgd pgn) →
    ∀ vicpgn ∈ c.mm.fifoPgn.getLast?, pteFpn (c.mm.pgd vicpgn) = vicpgn)

/-- The frames an alloc_pages_range takes fit the 13 bits of an entry. -/
def Sound (c : Caller) : VmOp → Prop
  | .alloc reqPgnum => ∀ fpn ∈ c.mram.freeFpList.take
      (c.mm.absent 0 reqPgnum ((Nat.zero_add _).trans_le (Nat.le_of_lt_succ reqPgnum.isLt))),
      fpn < 2 ^ 13
  | .setval addr _ | .getval addr => c.SoundAccess (pagingPgn addr)

/-- The FIFO list has the resident pages, which sit in frames of their own, and what was
written to a resident page is in its frame. -/
structure Backed (m : BitVec 32 → Option (BitVec 8)) (c : Caller) : Prop where
  fifo_nodup : c.mm.fifoPgn.Nodup
  fifo_mem : ∀ p, p ∈ c.mm.fifoPgn ↔ ∃ fpn, c.mm.frame p = some fpn
  exclusive : Exclusive c.mm.frame c.mram.freeFpList
  free_nodup : c.mram.freeFpList.Nodup
  content : ∀ a value, m a = some value → PtePresent (c.mm.pgd (pagingPgn a)) ∧
    ∀ fpn, c.mm.frame (pagingPgn a) = some fpn →
      c.mram.storage (phyaddr fpn (pagingOffst a)) = value

theorem Backed.fresh (mram mswp : Memphy) : Backed (fun _ => none) (fresh mram mswp) where
  fifo_nodup := List.nodup_nil
  fifo_mem p := by
    simp only [Caller.fresh, Mm.init_frame]
    simp [Mm.init]
  exclusive := by
    have none_held : (Caller.fresh mram mswp).mm.frame = fun _ => none := funext Mm.init_frame
    rw [none_held]
    exact .none _
  free_nodup := List.nodup_range
  content _ _ h := nomatch h

theorem phyaddr_inj {fpn fpn' off off' : Nat} (h : off < pagingPageSz) (h' : off' < pagingPageSz)
    (eq : phyaddr fpn off = phyaddr fpn' off') : fpn = fpn' ∧ off = off' := by
  simp only [phyaddr, Nat.shiftLeft_eq, pagingPageSz] at h h' eq
  omega

section Steps
variable {m : BitVec 32 → Option (BitVec 8)} {c : Caller}

theorem Backed.getpage (b : Backed m c) {pgn : Pgn} (sound : c.SoundAccess pgn) {fpn : Nat}
    {c' : Caller} (got : GetPage c pgn (some fpn) c') :
    Backed m c' ∧ c'.mm.frame pgn = some fpn := by
  obtain ⟨kept, victim⟩ := sound
  cases got with
  | hit present => exact ⟨b, if_pos ⟨present, kept⟩⟩
  | @fault vicpgn rest c' absent fifo _ mram fifo' frame' present' =>
      have own : vicpgn ∈ c.mm.fifoPgn := by simp [fifo]
      obtain ⟨fpn, sits⟩ := (b.fifo_mem vicpgn).mp own
      -- the victim sits in the frame the page is given
      have here : vicpgn.val % 2 ^ 13 = fpn := by
        have number := victim absent vicpgn (by simp [fifo])
        rw [(pteFrame_some sits).2.2] at number
        rw [← number, ← (pteFrame_some sits).2.2, Nat.mod_eq_of_lt (pteFpn_lt _)]
      rw [here] at frame' ⊢
      have empty : c.mm.frame pgn = none := pteFrame_absent absent
      have parts : rest.Nodup ∧ vicpgn ∉ rest := by
        have := b.fifo_nodup
        rw [fifo, List.nodup_append] at this
        exact ⟨this.1, fun member => this.2.2 vicpgn member vicpgn (by simp) rfl⟩
      have not_listed : pgn ∉ rest := by
        intro member
        obtain ⟨f, holds⟩ := (b.fifo_mem pgn).mp (by simp [fifo, member])
        rw [empty] at holds
        cases holds
      have at_page : c'.mm.frame pgn = some fpn := by rw [frame', Function.update_self]
      have elsewhere : ∀ p ≠ pgn, c'.mm.frame p = if p = vicpgn then none else c.mm.frame p := by
        intro p other
        rw [frame', Function.update_of_ne other, Function.update_apply]
      refine ⟨⟨?_, ?_, ?_, mram ▸ b.free_nodup, ?_⟩, at_page⟩
      · rw [fifo']
        exact List.nodup_cons.mpr ⟨not_listed, parts.1⟩
      · intro p
        rw [fifo', List.mem_cons]
        by_cases same : p = pgn
        · simp [same, at_page]
        · rw [elsewhere p same]
          by_cases out : p = vicpgn
          · simp [out, parts.2, out ▸ same]
          · simp [same, out, ← b.fifo_mem, fifo]
      · rw [frame', mram]
        exact (b.exclusive.handOver_iff empty).mpr ⟨b.exclusive.in_use _ _ sits,
          fun q other holds => other (b.exclusive.single _ _ _ holds sits)⟩
      · intro a value h
        obtain ⟨present, stored⟩ := b.content a value h
        refine ⟨(present' _).mpr (.inl present), ?_⟩
        intro f holds
        have other : pagingPgn a ≠ pgn := fun eq => absent (eq ▸ present)
        rw [elsewhere _ other] at holds
        split at holds
        · cases holds
        · exact mram ▸ stored f holds

theorem Backed.write (b : Backed m c) {addr : BitVec 32} {fpn : Nat}
    (sits : c.mm.frame (pagingPgn addr) = some fpn) (value : BitVec 8) {mram : Memphy}
    (h : c.mram.write (phyaddr fpn (pagingOffst addr)) value = some mram) :
    Backed (record m (.setval addr value)) { c with mram } := by
  obtain ⟨_, eq⟩ := Option.ite_none_right_eq_some.mp h
  obtain rfl := Option.some.inj eq
  refine ⟨b.fifo_nodup, b.fifo_mem, b.exclusive, b.free_nodup, ?_⟩
  intro a v written
  simp only [record] at written
  split at written
  · rename_i same
    obtain ⟨page, off⟩ := (same_address_iff addr a).mp same
    obtain rfl := Option.some.inj written
    rw [← page, ← off]
    refine ⟨(pteFrame_some sits).1, ?_⟩
    intro f holds
    obtain rfl := Option.some.inj (sits.symm.trans holds)
    exact Function.update_self _ _ _
  · rename_i other
    obtain ⟨present, stored⟩ := b.content a v written
    refine ⟨present, ?_⟩
    intro f holds
    refine (Function.update_of_ne (fun eq => other ?_) _ _).trans (stored f holds)
    obtain ⟨rfl, off⟩ := phyaddr_inj (pagingOffst_lt _) (pagingOffst_lt _) eq
    exact (same_address_iff addr a).mpr ⟨b.exclusive.single _ _ _ sits holds, off.symm⟩

theorem Backed.setval (b : Backed m c) {addr : BitVec 32} (sound : c.SoundAccess (pagingPgn addr))
    (value : BitVec 8) (through : (c.pgSetval addr value).1 = true) :
    Backed (record m (.setval addr value)) (c.pgSetval addr value).2 := by
  have spec := c.pgGetpage_spec (pagingPgn addr)
  unfold pgSetval at through ⊢
  generalize c.pgGetpage (pagingPgn addr) = r at spec through ⊢
  obtain ⟨_ | fpn, c'⟩ := r
  · cases through
  · obtain ⟨b', sits⟩ := b.getpage sound spec
    simp only at through ⊢
    cases written : c'.mram.write (phyaddr fpn (pagingOffst addr)) value with
    | none =>
        rw [written] at through
        cases through
    | some mram => exact b'.write sits value written

/-- The read lemma: a sound pg_getval that succeeds returns what was written last. -/
theorem Backed.getval (b : Backed m c) {addr : BitVec 32} (sound : c.SoundAccess (pagingPgn addr))
    (data : BitVec 8) (h : (c.pgGetval addr).1 = some data) :
    Backed m (c.pgGetval addr).2 ∧ ∀ value, m addr = some value → data = value := by
  have spec := c.pgGetpage_spec (pagingPgn addr)
  unfold pgGetval at h ⊢
  generalize c.pgGetpage (pagingPgn addr) = r at spec h ⊢
  obtain ⟨_ | fpn, c'⟩ := r
  · cases h
  · obtain ⟨b', sits⟩ := b.getpage sound spec
    obtain ⟨_, eq⟩ := Option.ite_none_right_eq_some.mp h
    refine ⟨b', ?_⟩
    intro value last
    rw [← (b'.content addr value last).2 fpn sits]
    exact (Option.some.inj eq).symm

theorem Backed.allocPage (b : Backed m c) {pgn : Pgn} (absent : ¬ PtePresent (c.mm.pgd pgn))
    {fpn : Nat} {rest : List Nat} (free : c.mram.freeFpList = fpn :: rest) (fits : fpn < 2 ^ 13) :
    Backed m { c with
      mm := (c.mm.setPte pgn (pteSetFpn (c.mm.pgd pgn) fpn)).enlistPgnNode pgn
      mram := { c.mram with freeFpList := rest } } := by
  have empty : c.mm.frame pgn = none := pteFrame_absent absent
  have once := List.nodup_cons.mp (free ▸ b.free_nodup)
  have frame : (c.mm.setPte pgn (pteSetFpn (c.mm.pgd pgn) fpn)).frame =
      Function.update c.mm.frame pgn (some fpn) := by
    rw [Mm.setPte_frame, pteSetFpn_frame, Nat.mod_eq_of_lt fits]
  refine ⟨?_, ?_, ?_, once.2, ?_⟩
  · refine List.nodup_cons.mpr ⟨?_, b.fifo_nodup⟩
    intro member
    obtain ⟨f, holds⟩ := (b.fifo_mem pgn).mp member
    rw [empty] at holds
    cases holds
  · intro p
    change p ∈ pgn :: c.mm.fifoPgn ↔ ∃ f, (c.mm.setPte pgn _).frame p = some f
    rw [frame, List.mem_cons, b.fifo_mem, Function.update_apply]
    split
    · simp [*]
    · simp [*]
  · change Exclusive (c.mm.setPte pgn _).frame rest
    rw [frame]
    exact (free ▸ b.exclusive).take once.1 empty
  · intro a value h
    obtain ⟨present, stored⟩ := b.content a value h
    have other : pagingPgn a ≠ pgn := fun eq => absent (eq ▸ present)
    refine ⟨(Mm.setPte_present _ _ (pteSetFpn_present _ _) _).mpr (.inl present), ?_⟩
    intro f holds
    change (c.mm.setPte pgn _).frame _ = _ at holds
    rw [frame, Function.update_of_ne other] at holds
    exact stored f holds

theorem absent_congr {mm : Mm} (mm' : Mm) {left pgit : Nat} (inside : pgit + left ≤ pagingMaxPgn)
    (same : ∀ p : Pgn, pgit ≤ p.val → mm.pgd p = mm'.pgd p) :
    mm.absent pgit left inside = mm'.absent pgit left inside := by
  induction left generalizing pgit with
  | zero => rfl
  | succ left ih =>
      unfold Mm.absent
      rw [same _ le_rfl, ih (by omega) fun p later => same p (by omega)]

/-- The loop lemma, by induction on the pages left. -/
theorem Backed.allocLoop {left pgit : Nat} {inside : pgit + left ≤ pagingMaxPgn}
    (frmLst : List Nat) (b : Backed m c)
    (fits : ∀ fpn ∈ c.mram.freeFpList.take (c.mm.absent pgit left inside), fpn < 2 ^ 13)
    (through : (Caller.allocLoop pgit left inside frmLst c).1 = true) :
    Backed m (Caller.allocLoop pgit left inside frmLst c).2.2 := by
  induction left generalizing pgit frmLst c with
  | zero => exact b
  | succ left ih =>
      unfold Caller.allocLoop at through ⊢
      unfold Mm.absent at fits
      simp only at through ⊢
      split at through
      · rename_i present
        rw [if_pos present] at fits ⊢
        exact ih _ b (by simpa using fits) through
      · rename_i absent
        rw [if_neg absent] at fits ⊢
        unfold Memphy.getFreefp at through ⊢
        cases free : c.mram.freeFpList with
        | nil =>
            rw [free] at through
            cases through
        | cons fpn rest =>
            simp only [free] at through ⊢
            rw [free, Nat.add_comm, List.take_succ_cons] at fits
            have present : PtePresent ((c.mm.setPte ⟨pgit, by omega⟩
                (pteSetFpn (c.mm.pgd ⟨pgit, by omega⟩) fpn)).pgd ⟨pgit, by omega⟩) :=
              (Mm.setPte_present _ _ (pteSetFpn_present _ _) _).mpr (.inr rfl)
            rw [if_pos present] at through ⊢
            refine ih _ (b.allocPage absent free (fits fpn List.mem_cons_self)) ?_ through
            intro f member
            refine fits f (List.mem_cons_of_mem _ ?_)
            rwa [absent_congr c.mm _ fun p later => ?_] at member
            have other : p ≠ ⟨pgit, by omega⟩ := fun eq => by
              rw [eq] at later
              exact absurd later (Nat.not_succ_le_self pgit)
            exact Function.update_of_ne other _ _

end Steps

/-- The step lemma: a sound call keeps what is written backed. -/
theorem Backed.step {m : BitVec 32 → Option (BitVec 8)} {c c' : Caller} (b : Backed m c)
    {op : VmOp} (sound : c.Sound op) (h : c.step op = some c') : Backed (record m op) c' := by
  unfold Caller.step at h
  split at h
  · rename_i reqPgnum
    have kept := b.allocLoop [] sound
    unfold allocPagesRange at h
    split at h
    · rename_i eq
      rw [eq] at kept
      exact Option.some.inj h ▸ kept rfl
    · cases h
  · rename_i addr value
    have kept := b.setval sound value
    split at h
    · rename_i eq
      rw [eq] at kept
      exact Option.some.inj h ▸ kept rfl
    · cases h
  · rename_i addr
    have kept := b.getval sound
    split at h
    · rename_i data c₁ eq
      rw [eq] at kept
      exact Option.some.inj h ▸ (kept data rfl).1
    · cases h

/-- The run lemma. -/
theorem Backed.run {m : BitVec 32 → Option (BitVec 8)} {c c' : Caller} (b : Backed m c)
    {ops : List VmOp} (each : EachStep Caller.step Sound c ops)
    (h : Transition.run Caller.step c ops = some c') : Backed (ops.foldl record m) c' := by
  induction ops generalizing c m with
  | nil => exact Option.some.inj h ▸ b
  | cons op ops ih =>
      obtain ⟨c₁, first, rest⟩ := Option.bind_eq_some_iff.mp h
      obtain ⟨sound, later⟩ := each c₁ first
      exact ih (b.step sound first) later rest

/-- In every run whose calls are all sound, every pg_getval that succeeds returns the value
of the latest pg_setval to its address. -/
theorem reads_back (mram mswp : Memphy) {ops : List VmOp}
    (each : EachStep step Sound (fresh mram mswp) ops) : ReadsBack (fresh mram mswp) ops := by
  rintro before addr after c' data rfl h got value last
  obtain ⟨first, later⟩ := each.of_append h
  have b := (Backed.fresh mram mswp).run first h
  have stepped : c'.step (.getval addr) = some (c'.pgGetval addr).2 := by
    rcases eq : c'.pgGetval addr with ⟨_ | _, _⟩
    · rw [eq] at got
      cases got
    · simp only [Caller.step, eq]
  exact (b.getval (later _ stepped).1 data got).2 value last

def twoFrames : Memphy := ⟨fun _ => 0, 512, true, []⟩

-- `Fin` would decide this by a search through all pages
instance (c : Caller) (pgn : Pgn) : Decidable (c.SoundAccess pgn) :=
  have : Decidable (∀ vicpgn ∈ c.mm.fifoPgn.getLast?, pteFpn (c.mm.pgd vicpgn) = vicpgn) :=
    Option.decidableForallMem _
  inferInstanceAs (Decidable (_ ∧ (_ → _)))

instance (c : Caller) : DecidablePred c.Sound
  | .alloc _ => inferInstanceAs (Decidable (∀ fpn ∈ _, _))
  | .setval addr _ => inferInstanceAs (Decidable (c.SoundAccess (pagingPgn addr)))
  | .getval addr => inferInstanceAs (Decidable (c.SoundAccess (pagingPgn addr)))

/-- Page 0 is written and read, then evicted for page 2, which is written and read. -/
theorem reads_back_two : ReadsBack (fresh twoFrames twoFrames)
    [.alloc 2, .setval 0 5, .getval 0, .setval 512 7, .getval 512] :=
  reads_back twoFrames twoFrames (by decide +kernel)

/-- The same without page 2 being read: page 0 is still present, and its entry now leads to
the frame page 2 has been given. -/
theorem written_value_lost : ¬ ∀ mram mswp ops, ReadsBack (fresh mram mswp) ops := by
  intro claim
  obtain ⟨c, through, got⟩ : ∃ c ∈ Transition.run step (fresh twoFrames twoFrames)
      [.alloc 2, .setval 0 5, .setval 512 7], (c.pgGetval 0).1 = some 7 := by
    decide +kernel
  have last : written [.alloc 2, .setval 0 5, .setval 512 7] 0 = some 5 := by decide +kernel
  exact absurd (claim twoFrames twoFrames _ _ 0 [] c 7 rfl through got 5 last) (by decide)

end Caller
end OsSim
