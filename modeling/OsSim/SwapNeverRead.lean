import OsSim.FramePartition
import OsSim.FreeMemph
import OsSim.MemoryLaw

/-! What the swap devices are for. pg_getpage copies the victim's page to a swap device, and no
call copies anything back: a page once in RAM counts as present, and is not looked for on swap. -/
namespace OsSim
open Transition

/-- The calls a process makes for its pages. -/
inductive MemCall (ι : Type*)
  | allocPages (a : AllocCall ι)
  | getval (i : ι) (addr : BitVec 32)
  | setval (i : ι) (addr : BitVec 32) (value : BitVec 8)
  | freeMemph (i : ι)

/-- What they return, and what they leave in `*frm_lst` and `*data`. -/
inductive MemResult
  | allocPages (zero : Bool) (frmLst : List Nat)
  | getval (data : Option (BitVec 8))
  | setval (zero : Bool)
  | freeMemph

/-- The page that a call is for; the other calls reach no byte of a device. -/
def MemCall.page {ι : Type*} : MemCall ι → Option (ι × Pgn)
  | .getval i addr | .setval i addr _ => some (i, pagingPgn addr)
  | .allocPages _ | .freeMemph _ => none

/-- The frame lies inside the device. -/
def Memphy.Holds (mp : Memphy) (fpn : Nat) : Prop := (fpn + 1) * pagingPageSz ≤ mp.maxsz

instance (mp : Memphy) : DecidablePred mp.Holds := fun _ => inferInstanceAs (Decidable (_ ≤ _))

theorem Memphy.copyCell_freeFpList (mpsrc mpdst : Memphy) (addrsrc addrdst : Nat) :
    (copyCell mpsrc addrsrc addrdst mpdst).freeFpList = mpdst.freeFpList := by
  unfold copyCell write
  split <;> rfl

/-- A copy takes no frame. -/
theorem Memphy.swapCpPage_freeFpList (mpsrc mpdst : Memphy) (srcfpn dstfpn : Nat) :
    (swapCpPage mpsrc srcfpn mpdst dstfpn).freeFpList = mpdst.freeFpList := by
  unfold swapCpPage
  generalize List.range pagingPageSz = cells
  induction cells generalizing mpdst with
  | nil => rfl
  | cons cellidx cells ih => exact (ih _).trans (copyCell_freeFpList ..)

namespace Caller

/-- The frames that a call for the page reaches lie inside the devices: the one the page is in, or
the two of the copy, if there are a victim and a swap frame for it. -/
def Within (c : Caller) (pgn : Pgn) : Prop :=
  if PtePresent (c.mm.pgd pgn) then c.mram.Holds (pteFpn (c.mm.pgd pgn))
  else ∀ vicpgn ∈ c.mm.fifoPgn.getLast?.map Fin.val, ∀ swpfpn ∈ c.activeMswp.freeFpList.head?,
    c.mram.Holds vicpgn ∧ c.activeMswp.Holds swpfpn

instance (c : Caller) : DecidablePred c.Within := fun _ =>
  inferInstanceAs (Decidable (ite ..))

/-- The byte that pg_getval and pg_setval then come to is in RAM too: for a fault the frame is the
victim's number, or less. -/
theorem Within.phyaddr_lt {c : Caller} {addr : BitVec 32} (within : c.Within (pagingPgn addr))
    {fpn : Nat} (gets : (c.pgGetpage (pagingPgn addr)).1 = some fpn) :
    phyaddr fpn (pagingOffst addr) < c.mram.maxsz := by
  refine Caller.phyaddr_lt (pagingOffst_lt addr) ?_
  have spec := c.pgGetpage_spec (pagingPgn addr)
  generalize c.pgGetpage (pagingPgn addr) = r at spec gets
  obtain ⟨res, c'⟩ := r
  change GetPage c _ res c' at spec
  obtain rfl : res = some fpn := gets
  unfold Within at within
  cases spec with
  | hit present =>
      rw [if_pos present] at within
      exact within
  | @fault vicpgn rest _ absent fifo room =>
      rw [if_neg absent, fifo, List.getLast?_concat] at within
      obtain ⟨swpfpn, left, free⟩ := List.exists_cons_of_ne_nil room
      rw [free] at within
      obtain ⟨holds, -⟩ := within _ rfl _ rfl
      have low : vicpgn.val % 2 ^ 13 ≤ vicpgn.val := Nat.mod_le _ _
      exact (Nat.mul_le_mul_right _ (Nat.succ_le_succ low)).trans holds

/-- The callers differ in what is on the swap device, in its size and its mode, but not in which
of its frames are free. -/
structure SameButSwap (c c' : Caller) : Prop where
  mm : c.mm = c'.mm
  mram : c.mram = c'.mram
  swap_free : c.activeMswp.freeFpList = c'.activeMswp.freeFpList

variable {c c' : Caller}

theorem SameButSwap.pgGetpage (same : c.SameButSwap c') (pgn : Pgn) :
    (c.pgGetpage pgn).1 = (c'.pgGetpage pgn).1 ∧
      (c.pgGetpage pgn).2.SameButSwap (c'.pgGetpage pgn).2 := by
  obtain ⟨mm, mram, mswp⟩ := c
  obtain ⟨mm', mram', mswp'⟩ := c'
  obtain ⟨rfl, rfl, free⟩ := same
  change mswp.freeFpList = mswp'.freeFpList at free
  unfold Caller.pgGetpage
  dsimp only
  by_cases present : PtePresent (mm.pgd pgn)
  · rw [if_pos present, if_pos present]
    exact ⟨rfl, rfl, rfl, free⟩
  · rw [if_neg present, if_neg present]
    cases mm.findVictimPage with
    | none => exact ⟨rfl, rfl, rfl, free⟩
    | some victim =>
        unfold Memphy.getFreefp
        rw [← free]
        cases mswp.freeFpList with
        | nil => exact ⟨rfl, rfl, rfl, free⟩
        | cons swpfpn rest =>
            dsimp only
            refine ⟨rfl, rfl, rfl, ?_⟩
            rw [Memphy.swapCpPage_freeFpList, Memphy.swapCpPage_freeFpList]

theorem SameButSwap.pgGetval (same : c.SameButSwap c') (addr : BitVec 32) :
    (c.pgGetval addr).1 = (c'.pgGetval addr).1 ∧
      (c.pgGetval addr).2.SameButSwap (c'.pgGetval addr).2 := by
  obtain ⟨returned, got⟩ := same.pgGetpage (pagingPgn addr)
  unfold Caller.pgGetval
  generalize c.pgGetpage (pagingPgn addr) = r at returned got
  generalize c'.pgGetpage (pagingPgn addr) = r' at returned got
  obtain ⟨fpn, d⟩ := r
  obtain ⟨fpn', d'⟩ := r'
  obtain rfl : fpn = fpn' := returned
  cases fpn with
  | none => exact ⟨rfl, got⟩
  | some fpn => exact ⟨congrArg (Memphy.read · _) got.mram, got⟩

theorem SameButSwap.pgSetval (same : c.SameButSwap c') (addr : BitVec 32) (value : BitVec 8) :
    (c.pgSetval addr value).1 = (c'.pgSetval addr value).1 ∧
      (c.pgSetval addr value).2.SameButSwap (c'.pgSetval addr value).2 := by
  obtain ⟨returned, got⟩ := same.pgGetpage (pagingPgn addr)
  unfold Caller.pgSetval
  generalize c.pgGetpage (pagingPgn addr) = r at returned got
  generalize c'.pgGetpage (pagingPgn addr) = r' at returned got
  obtain ⟨fpn, d⟩ := r
  obtain ⟨fpn', d'⟩ := r'
  obtain rfl : fpn = fpn' := returned
  cases fpn with
  | none => exact ⟨rfl, got⟩
  | some fpn =>
      dsimp only
      rw [← got.mram]
      cases d.mram.write (phyaddr fpn (pagingOffst addr)) value with
      | none => exact ⟨rfl, got⟩
      | some mram => exact ⟨rfl, got.mm, rfl, got.swap_free⟩

theorem SameButSwap.allocPagesRange (same : c.SameButSwap c') (reqPgnum : Nat)
    (inside : reqPgnum ≤ pagingMaxPgn) (frmLst : List Nat) :
    ∃ zero taken d d', c.allocPagesRange reqPgnum inside frmLst = (zero, taken, d) ∧
      c'.allocPagesRange reqPgnum inside frmLst = (zero, taken, d') ∧ d.SameButSwap d' := by
  obtain ⟨mm, mram, mswp⟩ := c
  obtain ⟨mm', mram', mswp'⟩ := c'
  obtain ⟨rfl, rfl, free⟩ := same
  rw [allocPagesRange_eq, allocPagesRange_eq]
  exact ⟨_, _, _, _, rfl, rfl, rfl, rfl, free⟩

theorem SameButSwap.freePcbMemph (same : c.SameButSwap c') :
    c.freePcbMemph.SameButSwap c'.freePcbMemph := by
  obtain ⟨mm, mram, mswp⟩ := c
  obtain ⟨mm', mram', mswp'⟩ := c'
  obtain ⟨rfl, rfl, free⟩ := same
  change mswp.freeFpList = mswp'.freeFpList at free
  unfold Caller.freePcbMemph
  rw [freeLoop_eq _ rfl, freeLoop_eq _ rfl]
  exact ⟨rfl, rfl, by simp only [Memphy.putFreefp_all, free]⟩

end Caller

namespace MemSystem
variable {ι : Type*} [DecidableEq ι]

def memCall (s : MemSystem ι) : MemCall ι → MemResult × MemSystem ι
  | .allocPages a => let r := s.allocPages a; (.allocPages r.1 r.2.1, r.2.2)
  | .getval i addr => let r := s.getval i addr; (.getval r.1, r.2)
  | .setval i addr value => let r := s.setval i addr value; (.setval r.1, r.2)
  | .freeMemph i => (.freeMemph, s.putBack i (s.caller i).freePcbMemph)

def memStep (s : MemSystem ι) (a : MemCall ι) : Option (MemSystem ι) := some (s.memCall a).2

/-- The calls as far as C says what they do: MEMPHY_read and MEMPHY_write do not look at the size
of a device, and a call that reaches past the end of one has no step here. -/
def memStepWithin (s : MemSystem ι) (a : MemCall ι) : Option (MemSystem ι) :=
  if ∀ x ∈ a.page, (s.caller x.1).Within x.2 then s.memStep a else none

theorem run_memStepWithin {s t : MemSystem ι} {as : List (MemCall ι)}
    (runs : run memStepWithin s as = some t) : t = (calls memCall s as).2 := by
  induction as generalizing s with
  | nil => exact (Option.some.inj runs).symm
  | cons a as ih =>
      obtain ⟨u, first, rest⟩ := Option.bind_eq_some_iff.mp runs
      obtain ⟨-, moved⟩ := Option.ite_none_right_eq_some.mp first
      obtain rfl := Option.some.inj moved
      exact ih rest

/-- The systems differ in what is on the swap devices, in their sizes and their modes, but not in
which of their frames are free. -/
structure SameButSwap (s s' : MemSystem ι) : Prop where
  mm : s.mm = s'.mm
  mram : s.mram = s'.mram
  activeMswp : s.activeMswp = s'.activeMswp
  swap_free : ∀ k, (s.mswp k).freeFpList = (s'.mswp k).freeFpList

omit [DecidableEq ι] in
theorem SameButSwap.caller {s s' : MemSystem ι} (same : s.SameButSwap s') (i : ι) :
    (s.caller i).SameButSwap (s'.caller i) where
  mm := congrFun same.mm i
  mram := same.mram
  swap_free := by simp only [MemSystem.caller, same.activeMswp, same.swap_free]

theorem SameButSwap.putBack {s s' : MemSystem ι} (same : s.SameButSwap s') (i : ι)
    {c c' : Caller} (after : c.SameButSwap c') : (s.putBack i c).SameButSwap (s'.putBack i c') where
  mm := by rw [MemSystem.putBack, MemSystem.putBack, same.mm, after.mm]
  mram := after.mram
  activeMswp := same.activeMswp
  swap_free k := by
    simp only [MemSystem.putBack, same.activeMswp, Function.update_apply]
    split
    · exact after.swap_free
    · exact same.swap_free k

/-- The unwinding lemma, one case for each call. -/
theorem SameButSwap.memCall {s s' : MemSystem ι} (same : s.SameButSwap s') (a : MemCall ι) :
    (s.memCall a).1 = (s'.memCall a).1 ∧ (s.memCall a).2.SameButSwap (s'.memCall a).2 := by
  cases a with
  | allocPages a =>
      obtain ⟨zero, taken, d, d', alloc, alloc', after⟩ := (same.caller a.caller).allocPagesRange
        a.reqPgnum (reqPgnum_inside a.reqPgnum) a.frmLst
      simp only [MemSystem.memCall, MemSystem.allocPages, alloc, alloc']
      exact ⟨trivial, same.putBack a.caller after⟩
  | getval i addr =>
      obtain ⟨returned, after⟩ := (same.caller i).pgGetval addr
      exact ⟨congrArg MemResult.getval returned, same.putBack i after⟩
  | setval i addr value =>
      obtain ⟨returned, after⟩ := (same.caller i).pgSetval addr value
      exact ⟨congrArg MemResult.setval returned, same.putBack i after⟩
  | freeMemph i => exact ⟨rfl, same.putBack i (same.caller i).freePcbMemph⟩

/-- Whatever the processes call, in whatever order, as long as no call reaches past the end of a
device: what they get back does not depend on what the swap devices hold, how large they are and
whether they can be read at all, but only on which of their frames are free. -/
theorem swap_never_read {s s' t t' : MemSystem ι} (same : s.SameButSwap s')
    {as : List (MemCall ι)} (runs : run memStepWithin s as = some t)
    (runs' : run memStepWithin s' as = some t') :
    (calls memCall s as).1 = (calls memCall s' as).1 ∧ t.SameButSwap t' := by
  rw [run_memStepWithin runs, run_memStepWithin runs']
  exact calls_unwind (fun _ _ a same => same.memCall a) same as

/-- A process with two frames of RAM, and one frame of swap full of the same byte. -/
def swapFilled (held : BitVec 8) : MemSystem Unit where
  mram := ⟨fun _ => 0, 512, true, [0, 1]⟩
  mswp := fun _ => ⟨fun _ => held, 256, true, [0]⟩
  mm := fun _ => Mm.init
  activeMswp := fun _ => 0

/-- Page 0 is swapped out for page 2, and then read again. -/
def swapping : List (MemCall Unit) :=
  [.allocPages ⟨(), 2, []⟩, .setval () 0 5, .setval () 512 6, .getval () 0]

theorem swap_never_read_filled :
    (calls memCall (swapFilled 7) swapping).1 = (calls memCall (swapFilled 9) swapping).1 := by
  have same : (swapFilled 7).SameButSwap (swapFilled 9) := ⟨rfl, rfl, rfl, fun _ => rfl⟩
  have within : ∀ held ∈ [7, 9], (run memStepWithin (swapFilled held) swapping).isSome := by
    decide +kernel
  obtain ⟨t, runs⟩ := Option.isSome_iff_exists.mp (within 7 (by decide))
  obtain ⟨t', runs'⟩ := Option.isSome_iff_exists.mp (within 9 (by decide))
  exact (swap_never_read same runs runs').1

end MemSystem

namespace Caller

/-- The call brings the page in. -/
def Faults (c : Caller) (pgn : Pgn) : Prop :=
  ¬ PtePresent (c.mm.pgd pgn) ∧ (c.pgGetpage pgn).1.isSome

instance (c : Caller) : DecidablePred c.Faults := fun _ => inferInstanceAs (Decidable (_ ∧ _))

/-- What a call for one page may do to the page table and to the free swap frames. -/
structure Serves (c : Caller) (pgn : Pgn) (c' : Caller) : Prop where
  kept : ∀ p, PtePresent (c.mm.pgd p) → PtePresent (c'.mm.pgd p)
  brought : c.Faults pgn → PtePresent (c'.mm.pgd pgn)
  takes : c.Faults pgn → ∃ swpfpn, c.activeMswp.freeFpList = swpfpn :: c'.activeMswp.freeFpList
  spares : ¬ c.Faults pgn → c'.activeMswp.freeFpList = c.activeMswp.freeFpList

theorem faults_iff (c : Caller) (pgn : Pgn) : c.Faults pgn ↔
    ¬ PtePresent (c.mm.pgd pgn) ∧ c.mm.fifoPgn ≠ [] ∧ c.activeMswp.freeFpList ≠ [] := by
  have spec := c.pgGetpage_spec pgn
  unfold Faults
  generalize c.pgGetpage pgn = r at spec ⊢
  obtain ⟨res, c'⟩ := r
  change GetPage c pgn res c' at spec
  cases spec with
  | hit present => simp [present]
  | noVictim absent none => simp [none]
  | noSwap absent fifo full => simp [full]
  | fault absent fifo room => simp [absent, fifo, room]

/-- A call that has a victim takes the first free swap frame, if there is one. -/
theorem pgGetpage_swap (c : Caller) (pgn : Pgn) :
    (c.pgGetpage pgn).2.activeMswp.freeFpList =
      if PtePresent (c.mm.pgd pgn) ∨ c.mm.fifoPgn = [] then c.activeMswp.freeFpList
      else c.activeMswp.freeFpList.tail := by
  unfold pgGetpage Mm.findVictimPage Memphy.getFreefp
  by_cases present : PtePresent (c.mm.pgd pgn)
  · rw [if_pos present, if_pos (.inl present)]
  · rw [if_neg present]
    by_cases none : c.mm.fifoPgn = []
    · rw [if_pos (.inr none), none]
      rfl
    · rw [if_neg (not_or.mpr ⟨present, none⟩), List.getLast?_eq_some_getLast none]
      cases free : c.activeMswp.freeFpList with
      | nil => exact free
      | cons swpfpn left =>
          simp only [Option.map_some, Memphy.swapCpPage_freeFpList, List.tail_cons]

theorem pgGetpage_kept (c : Caller) (pgn p : Pgn) (there : PtePresent (c.mm.pgd p)) :
    PtePresent ((c.pgGetpage pgn).2.mm.pgd p) := by
  have spec := c.pgGetpage_spec pgn
  generalize c.pgGetpage pgn = r at spec ⊢
  obtain ⟨res, c'⟩ := r
  change GetPage c pgn res c' at spec
  cases spec with
  | hit _ | noVictim _ _ | noSwap _ _ _ => exact there
  | fault _ _ _ _ _ _ after => exact (after p).mpr (.inl there)

theorem pgGetpage_brings (c : Caller) (pgn : Pgn) (returned : (c.pgGetpage pgn).1.isSome) :
    PtePresent ((c.pgGetpage pgn).2.mm.pgd pgn) := by
  have spec := c.pgGetpage_spec pgn
  generalize c.pgGetpage pgn = r at spec returned ⊢
  obtain ⟨res, c'⟩ := r
  change GetPage c pgn res c' at spec
  cases spec with
  | hit present => exact present
  | noVictim _ _ | noSwap _ _ _ => cases returned
  | fault _ _ _ _ _ _ after => exact (after pgn).mpr (.inr (.inr rfl))

theorem pgGetpage_serves (c : Caller) (pgn : Pgn) : c.Serves pgn (c.pgGetpage pgn).2 where
  kept := c.pgGetpage_kept pgn
  brought faults := c.pgGetpage_brings pgn faults.2
  takes faults := by
    obtain ⟨absent, victim, room⟩ := (c.faults_iff pgn).mp faults
    obtain ⟨swpfpn, left, free⟩ := List.exists_cons_of_ne_nil room
    rw [pgGetpage_swap, if_neg (not_or.mpr ⟨absent, victim⟩), free]
    exact ⟨swpfpn, rfl⟩
  spares calm := by
    rw [pgGetpage_swap]
    split
    · rfl
    · rename_i served
      have full : c.activeMswp.freeFpList = [] := by
        by_contra room
        obtain ⟨absent, victim⟩ := not_or.mp served
        exact calm ((c.faults_iff pgn).mpr ⟨absent, victim, room⟩)
      rw [full]
      rfl

theorem pgGetval_serves (c : Caller) (addr : BitVec 32) :
    c.Serves (pagingPgn addr) (c.pgGetval addr).2 := by
  have serves := c.pgGetpage_serves (pagingPgn addr)
  unfold pgGetval
  generalize c.pgGetpage (pagingPgn addr) = r at serves ⊢
  obtain ⟨fpn, c'⟩ := r
  cases fpn with
  | none => exact serves
  | some fpn => exact serves

theorem pgSetval_serves (c : Caller) (addr : BitVec 32) (value : BitVec 8) :
    c.Serves (pagingPgn addr) (c.pgSetval addr value).2 := by
  have serves := c.pgGetpage_serves (pagingPgn addr)
  unfold pgSetval
  generalize c.pgGetpage (pagingPgn addr) = r at serves ⊢
  obtain ⟨fpn, c'⟩ := r
  cases fpn with
  | none => exact serves
  | some fpn =>
      dsimp only
      cases c'.mram.write (phyaddr fpn (pagingOffst addr)) value with
      | none => exact serves
      | some mram => exact ⟨serves.kept, serves.brought, serves.takes, serves.spares⟩

end Caller

namespace MemSystem
variable {ι : Type*} [DecidableEq ι]

def Present (s : MemSystem ι) (x : ι × Pgn) : Prop := PtePresent ((s.mm x.1).pgd x.2)

/-- The page that a call brings in. -/
def faults (s : MemSystem ι) (a : MemCall ι) (_ : MemSystem ι) : List (ι × Pgn) :=
  (a.page.filter fun x => (s.caller x.1).Faults x.2).toList

omit [DecidableEq ι] in
theorem mem_faults {s t : MemSystem ι} {a : MemCall ι} {x : ι × Pgn} :
    x ∈ s.faults a t ↔ a.page = some x ∧ (s.caller x.1).Faults x.2 := by
  rw [faults, Option.mem_toList, Option.filter_eq_some_iff, decide_eq_true_iff]

omit [DecidableEq ι] in
theorem faults_of_page {s : MemSystem ι} (t : MemSystem ι) {a : MemCall ι} {x : ι × Pgn}
    (asks : a.page = some x) :
    s.faults a t = if (s.caller x.1).Faults x.2 then [x] else [] := by
  rw [faults, asks, Option.filter_some]
  by_cases faults : (s.caller x.1).Faults x.2
  · simp [faults]
  · simp [faults]

theorem putBack_mm (s : MemSystem ι) (i : ι) (c : Caller) (j : ι) :
    (s.putBack i c).mm j = if j = i then c.mm else s.mm j :=
  Function.update_apply ..

theorem putBack_free (s : MemSystem ι) (i : ι) (c : Caller) (k : Nat) :
    ((s.putBack i c).mswp k).freeFpList =
      if k = s.activeMswp i then c.activeMswp.freeFpList else (s.mswp k).freeFpList := by
  rw [← apply_ite Memphy.freeFpList]
  exact congrArg Memphy.freeFpList (Function.update_apply ..)

theorem putBack_present {s : MemSystem ι} {i : ι} {c : Caller}
    (kept : ∀ p, PtePresent ((s.mm i).pgd p) → PtePresent (c.mm.pgd p)) {x : ι × Pgn}
    (there : s.Present x) : (s.putBack i c).Present x := by
  rw [Present, putBack_mm]
  split
  · rename_i own
    exact kept x.2 (own ▸ there)
  · exact there

theorem memCall_serves {s : MemSystem ι} {a : MemCall ι} {x : ι × Pgn} (asks : a.page = some x) :
    ∃ c, (s.memCall a).2 = s.putBack x.1 c ∧ (s.caller x.1).Serves x.2 c := by
  cases a with
  | getval i addr =>
      obtain rfl := Option.some.inj asks
      exact ⟨_, rfl, (s.caller i).pgGetval_serves addr⟩
  | setval i addr value =>
      obtain rfl := Option.some.inj asks
      exact ⟨_, rfl, (s.caller i).pgSetval_serves addr value⟩
  | allocPages a | freeMemph i => cases asks

/-- No call takes the present bit off a page. -/
theorem memCall_present {s : MemSystem ι} (a : MemCall ι) {x : ι × Pgn} (there : s.Present x) :
    (s.memCall a).2.Present x := by
  cases asks : a.page with
  | some y =>
      obtain ⟨c, after, serves⟩ := memCall_serves (s := s) asks
      rw [after]
      exact putBack_present serves.kept there
  | none =>
      cases a with
      | getval | setval => cases asks
      | freeMemph i =>
          refine putBack_present (fun p present => ?_) there
          rw [Caller.freePcbMemph, Caller.freeLoop_eq _ rfl]
          exact present
      | allocPages a =>
          refine putBack_present (fun p present => ?_) there
          rw [Caller.allocPagesRange_eq]
          exact (Mm.mapPages_present p).mpr (.inl present)

/-- What has come in has not been there before and is there since. -/
structure FaultedOnce (s t : MemSystem ι) (past : List (ι × Pgn)) : Prop where
  once : past.Nodup
  absent : ∀ x ∈ past, ¬ s.Present x
  present : ∀ x, s.Present x ∨ x ∈ past → t.Present x

/-- The step lemma. -/
theorem FaultedOnce.memCall {s t : MemSystem ι} {past : List (ι × Pgn)}
    (h : s.FaultedOnce t past) (a : MemCall ι) :
    s.FaultedOnce (t.memCall a).2 (t.faults a (t.memCall a).2 ++ past) := by
  have kept : ∀ x, s.Present x ∨ x ∈ past → (t.memCall a).2.Present x :=
    fun x was => memCall_present a (h.present x was)
  have new : ∀ x ∈ t.faults a (t.memCall a).2, ¬ t.Present x ∧ (t.memCall a).2.Present x := by
    intro x member
    obtain ⟨asks, faults⟩ := mem_faults.mp member
    obtain ⟨c, after, serves⟩ := memCall_serves (s := t) asks
    refine ⟨faults.1, ?_⟩
    rw [after, Present, putBack_mm, if_pos rfl]
    exact serves.brought faults
  refine ⟨List.nodup_append.mpr ⟨?_, h.once, ?_⟩, ?_, ?_⟩
  · unfold faults
    cases a.page.filter _ with
    | none => exact List.nodup_nil
    | some x => exact List.nodup_singleton x
  · rintro x member y before rfl
    exact (new x member).1 (h.present x (.inr before))
  · intro x member
    rcases List.mem_append.mp member with member | before
    · exact fun was => (new x member).1 (h.present x (.inl was))
    · exact h.absent x before
  · intro x was
    rcases was with was | member
    · exact kept x (.inl was)
    · rcases List.mem_append.mp member with member | before
      · exact (new x member).2
      · exact kept x (.inr before)

/-- A call takes a frame of the swap device for a page it brings in, and for nothing else. -/
theorem memCall_swap (s : MemSystem ι) {a : MemCall ι} (keeps : ∀ i, a ≠ .freeMemph i) (k : Nat) :
    ∃ taken, (s.mswp k).freeFpList = taken ++ ((s.memCall a).2.mswp k).freeFpList ∧
      taken.length = (s.faults a (s.memCall a).2).countP fun x => s.activeMswp x.1 = k := by
  cases asks : a.page with
  | none =>
      cases a with
      | getval | setval => cases asks
      | freeMemph i => exact absurd rfl (keeps i)
      | allocPages a =>
          refine ⟨[], ?_, rfl⟩
          change _ = ((s.allocPages a).2.2.mswp k).freeFpList
          rw [allocPages, Caller.allocPagesRange_eq, putBack_free, eq_comm, ite_eq_right_iff]
          rintro rfl
          rfl
  | some x =>
      obtain ⟨c, after, serves⟩ := memCall_serves (s := s) asks
      rw [faults_of_page _ asks, after, putBack_free]
      by_cases faults : (s.caller x.1).Faults x.2
      · rw [if_pos faults, List.countP_singleton]
        obtain ⟨swpfpn, free⟩ := serves.takes faults
        by_cases own : k = s.activeMswp x.1
        · subst own
          exact ⟨[swpfpn], by rw [if_pos rfl]; exact free, by simp⟩
        · exact ⟨[], by rw [if_neg own]; rfl, by simp [Ne.symm own]⟩
      · rw [if_neg faults]
        refine ⟨[], ?_, rfl⟩
        split
        · rename_i own
          rw [serves.spares faults, own]
          rfl
        · rfl

/-- The swap frames that have been taken: one for each page that came in, and none put back. -/
structure Spent (s t : MemSystem ι) (past : List (ι × Pgn)) : Prop where
  activeMswp : t.activeMswp = s.activeMswp
  taken : ∀ k, ∃ taken, (s.mswp k).freeFpList = taken ++ (t.mswp k).freeFpList ∧
    taken.length = past.countP fun x => s.activeMswp x.1 = k

theorem memCall_activeMswp (s : MemSystem ι) (a : MemCall ι) :
    (s.memCall a).2.activeMswp = s.activeMswp := by
  cases a with
  | allocPages | getval | setval | freeMemph => rfl

theorem Spent.memCall {s t : MemSystem ι} {past : List (ι × Pgn)} (h : s.Spent t past)
    {a : MemCall ι} (keeps : ∀ i, a ≠ .freeMemph i) :
    s.Spent (t.memCall a).2 (t.faults a (t.memCall a).2 ++ past) := by
  refine ⟨(t.memCall_activeMswp a).trans h.activeMswp, fun k => ?_⟩
  obtain ⟨taken, list, count⟩ := h.taken k
  obtain ⟨next, list', count'⟩ := t.memCall_swap keeps k
  rw [h.activeMswp] at count'
  refine ⟨taken ++ next, ?_, ?_⟩
  · rw [list, list', List.append_assoc]
  · rw [List.length_append, List.countP_append, count, count', Nat.add_comm]

/-- Whatever the processes call, in whatever order: no page comes in a second time, since the
present bit stays with a page for good; and as long as nothing is freed, a swap device loses a
frame to each page that comes in, whether there is a byte in it to keep or not. -/
theorem faults_once (s : MemSystem ι) (as : List (MemCall ι)) :
    ∃ past, run (recorded memStep faults) (s, []) as = some ((calls memCall s as).2, past) ∧
      s.FaultedOnce (calls memCall s as).2 past ∧
      ((∀ i, .freeMemph i ∉ as) → s.Spent (calls memCall s as).2 past) := by
  have start : s.FaultedOnce s [] :=
    ⟨List.nodup_nil, List.forall_mem_nil _, fun x was => was.resolve_right List.not_mem_nil⟩
  have beside : ∃ past, run (recorded memStep faults) (s, []) as =
      some ((calls memCall s as).2, past) ∧ s.FaultedOnce (calls memCall s as).2 past :=
    run_beside (fun t a u past once moved => by
      obtain rfl := Option.some.inj moved
      exact once.memCall a) (run_calls s as) start
  obtain ⟨past, runs, once⟩ := beside
  refine ⟨past, runs, once, fun kept => ?_⟩
  have own : ∀ a ∈ as, ∀ i, a ≠ .freeMemph i := fun a member i freed => kept i (freed ▸ member)
  refine run_beside_own (P := s.Spent) ?_ runs own ⟨rfl, fun k => ⟨[], rfl, rfl⟩⟩
  intro t a u past spent own moved
  obtain rfl := Option.some.inj moved
  exact spent.memCall own

end MemSystem
end OsSim
