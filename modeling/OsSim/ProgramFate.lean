import OsSim.AreaGrowth
import OsSim.InitMm
import OsSim.SymtblSafety

/-! What a program comes to. init_mm leaves areas of no bytes and a page table without a page.
An allocation would have to grow its area, which faults; so nothing is ever allocated, no page is
ever mapped, and every access that is let through finds no page. -/
namespace OsSim

/-- The memory of each process, as read_config sets it. -/
def Config.vmemsz : BitVec 32 := 0x300000

namespace Vmm

/-- The areas of init_mm, over symbols without a byte. -/
structure Bare (vm : Vmm) : Prop where
  areas : vm.mmap = initMm.mmap
  empty : ∀ i, (vm.symrg i).rgEnd ≤ (vm.symrg i).rgStart

theorem initMm_bare : initMm.Bare where
  areas := rfl
  empty := by decide +kernel

/-- A request for some bytes that can be rounded up to whole pages. -/
def Asks (size : BitVec 32) : Prop := 0 < size.toInt ∧ size.toInt + 255 < 2 ^ 31

instance (size : BitVec 32) : Decidable (Asks size) := inferInstanceAs (Decidable (_ ∧ _))

/-- A request for whole pages asks the area to grow by one, which the data area may do; the heap
grows by none. -/
theorem initMm_grows {size : BitVec 32} (asks : Asks size) (vmaid : Fin 2) :
    initMm.mayGrow Config.vmemsz vmaid.val size = true := by
  obtain ⟨pos, small⟩ := asks
  have aligned := pagingPageAlignsz_toInt small
  rw [Int.tdiv_eq_ediv_of_nonneg (by omega)] at aligned
  have page : expandSize vmaid.val size (pagingPageAlignsz size) =
      expandSize vmaid.val 1 (pagingPageAlignsz 1) := by
    simp only [expandSize]
    rw [if_neg (show ¬ (pagingPageAlignsz size).toInt < size.toInt by omega)]
    rfl
  rw [Vmm.mayGrow, page]
  obtain rfl | rfl : vmaid = 0 ∨ vmaid = 1 := by omega
  · decide +kernel
  · decide +kernel

/-- The sizes that wrap when they are rounded up ask the area to end outside of the memory. -/
theorem initMm_wrapped : ∀ vmaid : Fin 2, ∀ k < 255,
    initMm.mayGrow Config.vmemsz vmaid.val (BitVec.ofNat 32 (2 ^ 31 - 255 + k)) = false := by
  decide +kernel

theorem initMm_mayGrow {size : BitVec 32} (pos : 0 < size.toInt) (vmaid : Fin 2) :
    initMm.mayGrow Config.vmemsz vmaid.val size = decide (Asks size) := by
  by_cases asks : Asks size
  · rw [decide_eq_true asks, initMm_grows asks]
  · have bound := BitVec.toInt_lt (x := size)
    have value := BitVec.toInt_eq_toNat_cond size
    have wrapped : size = BitVec.ofNat 32 (2 ^ 31 - 255 + (size.toNat - (2 ^ 31 - 255))) ∧
        size.toNat - (2 ^ 31 - 255) < 255 := by
      have large : ¬ size.toInt + 255 < 2 ^ 31 := fun small => asks ⟨pos, small⟩
      refine ⟨BitVec.eq_of_toNat_eq ?_, ?_⟩
      · rw [BitVec.toNat_ofNat]
        split at value <;> omega
      · split at value <;> omega
    rw [decide_eq_false asks, wrapped.1]
    exact initMm_wrapped vmaid _ wrapped.2

section Bare
variable {vm : Vmm} (bare : vm.Bare)
include bare

theorem Bare.area (vmaid : Fin 2) :
    vm.getVmaByNum vmaid.val = some ⟨BitVec.ofNat 64 vmaid.val, 0, 0, [⟨0, 0, 0⟩]⟩ := by
  unfold getVmaByNum
  rw [bare.areas]
  obtain rfl | rfl : vmaid = 0 ∨ vmaid = 1 := by omega
  · rfl
  · rfl

theorem Bare.mayGrow {size : BitVec 32} (pos : 0 < size.toInt) (vmaid : Fin 2) :
    vm.mayGrow Config.vmemsz vmaid.val size = decide (Asks size) := by
  have same : vm = { initMm with symrgtbl := vm.symrgtbl } := by
    rcases vm with ⟨mmap, symrgtbl⟩
    obtain rfl : mmap = initMm.mmap := bare.areas
    rfl
  rw [← initMm_mayGrow pos, same]
  rfl

theorem Bare.alloc (vmaid : Fin 2) (rgid : Int) (size : BitVec 32) :
    vm.alloc Config.vmemsz vmaid.val rgid size =
      if Asks size then .error .nullIncLimitRet else .ok (false, vm) := by
  by_cases pos : 0 < size.toInt
  · have fitless : Fitless vmaid.val (size.signExtend 64) [⟨0, 0, 0⟩] := by
      refine fun _ => ⟨?_, trivial⟩
      obtain ⟨same, some_bytes, -⟩ := signExtend_toNat pos
      intro fits
      rw [show (0 : BitVec 64) + size.signExtend 64 = size.signExtend 64 from BitVec.zero_add _]
        at fits
      exact absurd (BitVec.le_def.mp fits) (Nat.not_le_of_lt (same ▸ some_bytes))
    obtain ⟨newrg, search⟩ : ∃ newrg, vm.getFreeVmrgArea vmaid.val size ⟨vmaid.val, 0, 0⟩ =
        .ok (false, newrg, vm) := getFreeVmrgArea_fitless (bare.area vmaid) fitless
    rw [alloc_not_found pos search, bare.mayGrow pos]
    by_cases asks : Asks size
    · rw [decide_eq_true asks, if_pos rfl, if_pos asks]
    · rw [decide_eq_false asks, if_neg Bool.false_ne_true, if_neg asks]
  · rw [alloc_nonpos pos, if_neg fun asks => pos asks.1]

/-- A region that is freed has no bytes, and is not put on the list. -/
theorem Bare.free (rgid : Int) : ∃ ok vm', vm.free rgid = .ok (ok, vm') ∧ vm'.Bare := by
  cases entry : symIndex rgid with
  | none => exact ⟨false, vm, by rw [Vmm.free, entry], bare⟩
  | some i =>
      by_cases dead : (vm.symrg i).vmaid < 0 ∨ 1 < (vm.symrg i).vmaid
      · refine ⟨false, vm, ?_, bare⟩
        rw [Vmm.free, entry]
        exact if_pos dead
      · have enlisted : vm.enlistVmFreergList (vm.symrg i) = .ok vm := by
          rw [enlistVmFreergList, bare.areas]
          exact if_pos (bare.empty i)
        refine ⟨true, vm.setSymrg i ⟨-1, 0, 0⟩, ?_, bare.areas, fun j => ?_⟩
        · rw [Vmm.free, entry]
          dsimp only
          rw [if_neg dead, enlisted]
          rfl
        · by_cases here : j = i
          · rw [here, symrg_setSymrg_self]
            exact BitVec.le_refl _
          · rw [symrg_setSymrg_ne vm here]
            exact bare.empty j

end Bare
end Vmm

namespace Caller
variable {c : Caller}

/-- No page is in RAM, and so none is on the list of victims. -/
structure Unmapped (c : Caller) : Prop where
  absent : ∀ pgn, ¬ PtePresent (c.mm.pgd pgn)
  no_victim : c.mm.fifoPgn = []

theorem Unmapped.pgGetpage (unmapped : c.Unmapped) (pgn : Pgn) : c.pgGetpage pgn = (none, c) := by
  rw [Caller.pgGetpage, if_neg (unmapped.absent pgn), Mm.findVictimPage, unmapped.no_victim]
  rfl

theorem Unmapped.pgGetval (unmapped : c.Unmapped) (addr : BitVec 32) :
    c.pgGetval addr = (none, c) := by
  rw [Caller.pgGetval, unmapped.pgGetpage]

theorem Unmapped.pgSetval (unmapped : c.Unmapped) (addr : BitVec 32) (value : BitVec 8) :
    c.pgSetval addr value = (false, c) := by
  rw [Caller.pgSetval, unmapped.pgGetpage]

end Caller

namespace Inst

/-- The instructions that end the simulator: an allocation that asks for pages, and an access to a
symbol for which get_symrg_byid returns NULL. -/
def Crashes (ins : Inst) : Prop :=
  match ins.opcode with
  | .calc | .free => False
  | .alloc | .malloc => Vmm.Asks ins.arg0
  | .read => pagingMaxSymtblSz < ins.arg0.toNat
  | .write => pagingMaxSymtblSz < ins.arg1.toNat

/-- The accesses that get_symrg_byid lets through to what lies behind the table. The simulator may
survive them, but C does not say what they do. -/
def Strays (ins : Inst) : Prop :=
  match ins.opcode with
  | .calc | .free | .alloc | .malloc => False
  | .read => ins.arg0.toNat = pagingMaxSymtblSz
  | .write => ins.arg1.toNat = pagingMaxSymtblSz

/-- The instructions at which a run of the model ends. -/
def Halts (ins : Inst) : Prop := ins.Crashes ∨ ins.Strays

instance : DecidablePred Crashes := fun ins => by
  unfold Crashes
  split <;> infer_instance

instance : DecidablePred Strays := fun ins => by
  unfold Strays
  split <;> infer_instance

instance : DecidablePred Halts := fun _ => inferInstanceAs (Decidable (_ ∨ _))

theorem halts_iff (ins : Inst) : ins.Halts ↔
    match ins.opcode with
    | .calc | .free => False
    | .alloc | .malloc => Vmm.Asks ins.arg0
    | .read => pagingMaxSymtblSz ≤ ins.arg0.toNat
    | .write => pagingMaxSymtblSz ≤ ins.arg1.toNat := by
  unfold Halts Crashes Strays
  cases ins.opcode with
  | «calc» | free | alloc | malloc => exact or_iff_left id
  | read | write => exact (le_iff_lt_or_eq.trans (or_congr_right eq_comm)).symm

/-- The table has the symbols 0 to 29, and get_symrg_byid refuses those from 31 on. -/
example : (∀ rgid < 30, ¬ Halts ⟨.read, BitVec.ofNat 32 rgid, 0, 0⟩) ∧
    Strays ⟨.read, 30, 0, 0⟩ ∧ ¬ Crashes ⟨.read, 30, 0, 0⟩ ∧ Crashes ⟨.read, 31, 0, 0⟩ := by
  decide

end Inst

namespace Pcb
variable {p : Pcb}

/-- A process as ld_routine hands it to the scheduler, or one that has come no further. It takes
memory full of zeros from malloc for that: init_mm writes neither the symbols nor the list of
victims, and reads the list of regions of the data area before it has been set. -/
structure Untouched (p : Pcb) : Prop where
  bare : p.vm.Bare
  unmapped : p.caller.Unmapped
  limit : p.vmemsz = Config.vmemsz

/-- The call halts, or it leaves nothing behind but symbols that are gone. -/
def Passes (p : Pcb) (halts : Prop) (r : Except Fault (Int × Pcb)) : Prop :=
  (halts → ∃ f, r = .error f) ∧
    (¬ halts → ∃ ret vm, r = .ok (ret, { p with vm }) ∧ vm.Bare)

/-- The process that ld_routine adds, with the devices of the system; the fields that init_mm does
not write hold nothing here. -/
def boot (code : List Inst) (regs : Vector (BitVec 32) 10) (mram activeMswp : Memphy) : Pcb where
  code := code
  regs := regs
  pc := 0
  caller := ⟨Mm.init, mram, activeMswp⟩
  vm := Vmm.initMm
  vmemsz := Config.vmemsz

theorem boot_untouched (code : List Inst) (regs : Vector (BitVec 32) 10)
    (mram activeMswp : Memphy) : (boot code regs mram activeMswp).Untouched where
  bare := Vmm.initMm_bare
  unmapped := ⟨fun _ => (by decide : ¬ PtePresent 0), rfl⟩
  limit := rfl

/-- Where malloc gives init_mm blocks full of zeros, or of anything that comes to the same, the
process is untouched. -/
theorem untouched_of_initMm {h r : Heap} {mm : Ptr} {b : Blocks}
    (returned : h.initMm mm b = some (0, r)) (no_link : (h.vma b.vma0).vmFreergList = 0)
    (no_victim : (h.mm mm).fifoPgn = 0)
    (empty : ∀ i, ((h.mm mm).symrgtbl.get i).rgEnd ≤ ((h.mm mm).symrgtbl.get i).rgStart)
    (areas : r.Represents mm p.vm) (limit : p.vmemsz = Config.vmemsz)
    (pages : ∀ pgn : Pgn, p.caller.mm.pgd pgn = r.pgd (r.mm mm).pgd pgn)
    (victims : (r.mm mm).fifoPgn = 0 → p.caller.mm.fifoPgn = []) : p.Untouched := by
  have done := Heap.initMm_spec returned
  have symbols : ∀ i, p.vm.symrg i = ((h.mm mm).symrgtbl.get i).value := by
    have shown := areas.2
    rwa [done.written] at shown
  have model : r.Represents mm { p.vm with mmap := Vmm.initMm.mmap } :=
    done.represents no_link rfl symbols
  refine ⟨⟨(areas.mmap_unique model :), fun i => ?_⟩, ⟨fun pgn => ?_, victims ?_⟩, limit⟩
  · rw [symbols]
    exact empty i
  · rw [pages, done.written, done.pages pgn pgn.isLt]
    decide
  · rw [done.written]
    exact no_victim

section Calls
variable (untouched : p.Untouched)
include untouched

theorem Untouched.alloc (vmaid : Fin 2) (rgid : Int) (size : BitVec 32) :
    p.Passes (Vmm.Asks size) (p.alloc vmaid.val rgid size) := by
  have result := untouched.bare.alloc vmaid rgid size
  rw [← untouched.limit] at result
  refine ⟨fun asks => ⟨.nullIncLimitRet, ?_⟩, fun none => ⟨-1, p.vm, ?_, untouched.bare⟩⟩
  · rw [Pcb.alloc, result, if_pos asks]
    rfl
  · rw [Pcb.alloc, result, if_neg none]
    rfl

theorem Untouched.pgfreeData (regIndex : BitVec 32) :
    p.Passes False (p.pgfreeData regIndex) := by
  obtain ⟨ok, vm, freed, bare⟩ := untouched.bare.free regIndex.toInt
  refine ⟨False.elim, fun _ => ⟨status ok, vm, ?_, bare⟩⟩
  rw [Pcb.pgfreeData, freed]
  rfl

theorem Untouched.pgread (source offset destination : BitVec 32) :
    p.Passes (pagingMaxSymtblSz ≤ source.toNat) (p.pgread source offset destination) := by
  constructor
  · intro past
    obtain ⟨f, fault, -⟩ := p.read_outside offset (symIndex_outside past)
    exact ⟨f, by rw [Pcb.pgread, fault]; rfl⟩
  · intro inside
    have entry := symIndex_inside (not_le.mp inside)
    cases area : p.vm.getVmaByNum (p.vm.symrg ⟨_, not_le.mp inside⟩).vmaid with
    | none =>
        refine ⟨-1, p.vm, ?_, untouched.bare⟩
        rw [Pcb.pgread, p.read_no_vma offset entry area]
        rfl
    | some vma =>
        refine ⟨0, p.vm, ?_, untouched.bare⟩
        rw [Pcb.pgread, p.read_vma offset entry area, untouched.unmapped.pgGetval]
        rfl

theorem Untouched.pgwrite (data : BitVec 8) (destination offset : BitVec 32) :
    p.Passes (pagingMaxSymtblSz ≤ destination.toNat) (p.pgwrite data destination offset) := by
  constructor
  · intro past
    obtain ⟨f, fault, -⟩ := p.write_outside offset (symIndex_outside past) data
    exact ⟨f, fault⟩
  · intro inside
    have entry := symIndex_inside (not_le.mp inside)
    cases area : p.vm.getVmaByNum (p.vm.symrg ⟨_, not_le.mp inside⟩).vmaid with
    | none => exact ⟨-1, p.vm, p.write_no_vma offset entry data area, untouched.bare⟩
    | some vma =>
        refine ⟨0, p.vm, ?_, untouched.bare⟩
        rw [Pcb.pgwrite, p.write_vma offset entry data area, untouched.unmapped.pgSetval]

/-- One instruction, a case for each opcode. -/
theorem Untouched.exec (ins : Inst) : p.Passes ins.Halts (p.exec ins) := by
  rw [ins.halts_iff]
  unfold Pcb.exec
  cases ins.opcode with
  | «calc» => exact ⟨False.elim, fun _ => ⟨0, p.vm, rfl, untouched.bare⟩⟩
  | alloc => exact untouched.alloc 0 _ _
  | malloc => exact untouched.alloc 1 _ _
  | free => exact untouched.pgfreeData _
  | read => exact untouched.pgread _ _ _
  | write => exact untouched.pgwrite _ _ _

end Calls

/-- run, so many times: what each call returned, and the process after the last one. -/
def runs (p : Pcb) : Nat → Except Fault (List Int × Pcb)
  | 0 => .ok ([], p)
  | n + 1 => do
      let (ret, p) ← p.run
      let (rets, p) ← p.runs n
      return (ret :: rets, p)

/-- One call of run: it halts at an instruction that does, and else goes on to the next one, if there
is one. -/
theorem Untouched.run (untouched : p.Untouched) :
    (∃ ins f, p.code[p.pc]? = some ins ∧ ins.Halts ∧ p.run = .error f) ∨
    (∃ ins ret vm, p.code[p.pc]? = some ins ∧ ¬ ins.Halts ∧ vm.Bare ∧
      p.run = .ok (ret, { p with pc := p.pc + 1, vm })) ∨
    p.code[p.pc]? = none ∧ p.run = .ok (1, p) := by
  cases fetched : p.code[p.pc]? with
  | none => exact .inr (.inr ⟨rfl, by rw [Pcb.run, fetched]⟩)
  | some ins =>
      have next : Untouched { p with pc := p.pc + 1 } :=
        ⟨untouched.bare, untouched.unmapped, untouched.limit⟩
      obtain ⟨ends, goes_on⟩ := next.exec ins
      rw [← run_eq fetched] at ends goes_on
      by_cases halts : ins.Halts
      · obtain ⟨f, fault⟩ := ends halts
        exact .inl ⟨ins, f, rfl, halts, fault⟩
      · obtain ⟨ret, vm, returned, bare⟩ := goes_on halts
        exact .inr (.inl ⟨ins, ret, vm, rfl, halts, bare, returned⟩)

theorem runs_succ {n : Nat} {ret : Int} {p' : Pcb} (first : p.run = .ok (ret, p')) :
    p.runs (n + 1) = (p'.runs n).map fun r => (ret :: r.1, r.2) := by
  rw [runs, first]
  dsimp only [bind, Except.bind]
  cases p'.runs n with
  | error f => rfl
  | ok r => rfl

/-- Any number of calls, by induction on it. -/
theorem Untouched.runs (untouched : p.Untouched) (n : Nat) :
    ((∃ ins ∈ (p.code.drop p.pc).take n, ins.Halts) → ∃ f, p.runs n = .error f) ∧
    ((∀ ins ∈ (p.code.drop p.pc).take n, ¬ ins.Halts) → ∃ rets vm, vm.Bare ∧
      p.runs n = .ok (rets, { p with pc := p.pc + min n (p.code.length - p.pc), vm })) := by
  induction n generalizing p with
  | zero =>
      refine ⟨fun ⟨ins, member, _⟩ => (nomatch member), fun _ => ⟨[], p.vm, untouched.bare, ?_⟩⟩
      rw [Nat.zero_min]
      rfl
  | succ n ih =>
      rcases untouched.run with ⟨ins, f, fetched, halts, fault⟩ |
        ⟨ins, ret, vm, fetched, passes, bare, returned⟩ | ⟨ended, returned⟩
      · have first : ins ∈ (p.code.drop p.pc).take (n + 1) := by
          rw [List.drop_eq_getElem?_toList_append, fetched]
          exact List.mem_cons_self
        refine ⟨fun _ => ⟨f, ?_⟩, fun none => absurd halts (none ins first)⟩
        rw [Pcb.runs, fault]
        rfl
      · have rest : (p.code.drop p.pc).take (n + 1) = ins :: (p.code.drop (p.pc + 1)).take n := by
          rw [List.drop_eq_getElem?_toList_append, fetched]
          rfl
        have later : Untouched { p with pc := p.pc + 1, vm } :=
          ⟨bare, untouched.unmapped, untouched.limit⟩
        obtain ⟨ends, goes_on⟩ := ih later
        rw [rest, runs_succ returned]
        refine ⟨fun ⟨ins', member, halts⟩ => ?_, fun none => ?_⟩
        · rcases List.mem_cons.mp member with rfl | member
          · exact absurd halts passes
          · obtain ⟨f, fault⟩ := ends ⟨ins', member, halts⟩
            exact ⟨f, by rw [fault]; rfl⟩
        · obtain ⟨rets, vm', bare', result⟩ := goes_on fun ins' member =>
            none ins' (List.mem_cons_of_mem _ member)
          refine ⟨ret :: rets, vm', bare', ?_⟩
          have inside := (List.getElem?_eq_some_iff.mp fetched).1
          have count : p.pc + 1 + min n (p.code.length - (p.pc + 1)) =
              p.pc + min (n + 1) (p.code.length - p.pc) := by omega
          rw [result, ← count]
          rfl
      · have past := List.getElem?_eq_none_iff.mp ended
        have nothing : p.code.drop p.pc = [] := List.drop_eq_nil_of_le past
        obtain ⟨-, goes_on⟩ := ih untouched
        rw [nothing, List.take_nil] at goes_on ⊢
        refine ⟨fun ⟨ins, member, _⟩ => (nomatch member), fun _ => ?_⟩
        obtain ⟨rets, vm, bare, result⟩ := goes_on (List.forall_mem_nil _)
        refine ⟨1 :: rets, vm, bare, ?_⟩
        rw [runs_succ returned, result, Nat.sub_eq_zero_of_le past, Nat.min_zero, Nat.min_zero]
        rfl

/-- What a program comes to, from the state that ld_routine leaves a process in, as long as it does
not stray: the simulator ends with the first instruction that asks for pages, or accesses a symbol
that there cannot be. Until then the program goes on, and neither RAM, swap nor page table, nor a
register or an area is changed by it. -/
theorem program_fate (untouched : p.Untouched) (start : p.pc = 0) (n : Nat) :
    ((∀ ins ∈ p.code.take n, ¬ ins.Strays) →
      ((∃ ins ∈ p.code.take n, ins.Crashes) ↔ ∃ f, p.runs n = .error f)) ∧
    ∀ rets p', p.runs n = .ok (rets, p') → p'.pc = min n p.code.length ∧
      p'.caller = p.caller ∧ p'.regs = p.regs ∧ p'.vm.mmap = p.vm.mmap := by
  obtain ⟨ends, goes_on⟩ := untouched.runs n
  rw [start, List.drop_zero] at ends goes_on
  rw [Nat.zero_add, Nat.sub_zero] at goes_on
  have halted : (∃ ins ∈ p.code.take n, ins.Halts) ↔ ∃ f, p.runs n = .error f := by
    refine ⟨ends, fun ⟨f, fault⟩ => ?_⟩
    by_contra none
    obtain ⟨rets, vm, -, result⟩ := goes_on fun ins member halts => none ⟨ins, member, halts⟩
    cases fault.symm.trans result
  constructor
  · intro inside
    rw [← halted]
    exact exists_congr fun ins => and_congr_right fun member =>
      (or_iff_left (inside ins member)).symm
  · intro rets p' returned
    obtain ⟨rets', vm, bare, result⟩ := goes_on fun ins member halts => by
      obtain ⟨f, fault⟩ := ends ⟨ins, member, halts⟩
      cases fault.symm.trans returned
    obtain ⟨-, rfl⟩ := Prod.mk.inj (Except.ok.inj (result.symm.trans returned))
    exact ⟨rfl, rfl, rfl, bare.areas.trans untouched.bare.areas.symm⟩

/-- A write that is let through, and then an allocation. -/
def writeThenAlloc : Pcb :=
  boot [⟨.write, 7, 0, 20⟩, ⟨.alloc, 300, 0, 0⟩] (Vector.replicate 10 0) Caller.twoFrames
    Caller.twoFrames

theorem program_fate_write : (∃ f, writeThenAlloc.runs 2 = .error f) ∧
    ∃ p', writeThenAlloc.runs 1 = .ok ([0], p') ∧ p'.pc = 1 ∧
      p'.caller = writeThenAlloc.caller := by
  have untouched : writeThenAlloc.Untouched := boot_untouched _ _ _ _
  obtain ⟨ends, -⟩ := program_fate untouched rfl 2
  obtain ⟨-, goes_on⟩ := program_fate untouched rfl 1
  obtain ⟨p', returned⟩ : ∃ p', writeThenAlloc.runs 1 = .ok ([0], p') := ⟨_, rfl⟩
  obtain ⟨pc, caller, -⟩ := goes_on _ p' returned
  have asks : ∃ ins ∈ writeThenAlloc.code.take 2, ins.Crashes := by decide
  exact ⟨(ends (by decide)).mp asks, p', returned, pc, caller⟩

end Pcb

end OsSim
