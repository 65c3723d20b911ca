import OsSim.FreeRegions
import OsSim.Os
import OsSim.Paging

/-! cpu.c with MM_PAGING, and the calls of mm-vm.c under it. A status is what the C code
returns, and a call through NULL or past the symbol table is a fault. -/
namespace OsSim

/-- The part of `struct pcb_t` that run and the calls under it use. -/
structure Pcb where
  code : List Inst
  regs : Vector (BitVec 32) 10
  pc : Nat
  caller : Caller
  vm : Vmm
  vmemsz : BitVec 32

/-- get_symrg_byid: `none` is NULL. Its check lets the index one past the table through. -/
def getSymrgByid (rgid : Int) : Option Nat :=
  if rgid < 0 ∨ pagingMaxSymtblSz < rgid then none else some rgid.toNat

namespace Vmm

/-- What `currg->` reads. -/
def derefSymrg (vm : Vmm) : Option Nat → Except Fault VmRg
  | none => .error .nullSymrg
  | some i =>
      if inside : i < pagingMaxSymtblSz then .ok (vm.symrg ⟨i, inside⟩) else .error .symtblRange

/-- The first two lines of __read and __write: the region and its area. -/
def symrgVma (vm : Vmm) (rgid : Int) : Except Fault (VmRg × Option VmArea) := do
  let currg ← vm.derefSymrg (getSymrgByid rgid)
  return (currg, vm.getVmaByNum currg.vmaid)

end Vmm

/-- `currg->rg_start + offset`, passed on as an int. -/
def VmRg.addr (currg : VmRg) (offset : BitVec 32) : BitVec 32 :=
  (currg.rgStart + offset.signExtend 64).setWidth 32

/-- What a call returns: 0, or -1. -/
def status (ok : Bool) : Int := if ok then 0 else -1

namespace Pcb

/-- `__read`, with the byte that pg_getval stored through the pointer it was given. -/
def read (p : Pcb) (rgid : Int) (offset : BitVec 32) :
    Except Fault (Int × Option (BitVec 8) × Pcb) := do
  match ← p.vm.symrgVma rgid with
  | (_, none) => return (-1, none, p)
  | (currg, some _) =>
      let (data, caller) := p.caller.pgGetval (currg.addr offset)
      return (0, data, { p with caller })

/-- `__write`. -/
def write (p : Pcb) (rgid : Int) (offset : BitVec 32) (value : BitVec 8) :
    Except Fault (Int × Pcb) := do
  match ← p.vm.symrgVma rgid with
  | (_, none) => return (-1, p)
  | (currg, some _) =>
      let (_, caller) := p.caller.pgSetval (currg.addr offset) value
      return (0, { p with caller })

/-- pgread stores the byte into its own parameter `destination`. -/
def pgread (p : Pcb) (source offset _destination : BitVec 32) : Except Fault (Int × Pcb) := do
  let (val, _, p) ← p.read source.toInt offset
  return (val, p)

def pgwrite (p : Pcb) (data : BitVec 8) (destination offset : BitVec 32) :
    Except Fault (Int × Pcb) :=
  p.write destination.toInt offset data

/-- `__alloc` for the process; pgalloc and pgmalloc differ in the area. -/
def alloc (p : Pcb) (vmaid rgid : Int) (size : BitVec 32) : Except Fault (Int × Pcb) := do
  let (ok, vm) ← p.vm.alloc p.vmemsz vmaid rgid size
  return (status ok, { p with vm })

def pgalloc (p : Pcb) (size regIndex : BitVec 32) : Except Fault (Int × Pcb) :=
  p.alloc 0 regIndex.toInt size

def pgmalloc (p : Pcb) (size regIndex : BitVec 32) : Except Fault (Int × Pcb) :=
  p.alloc 1 regIndex.toInt size

def pgfreeData (p : Pcb) (regIndex : BitVec 32) : Except Fault (Int × Pcb) := do
  let (ok, vm) ← p.vm.free regIndex.toInt
  return (status ok, { p with vm })

/-- The switch of run. -/
def exec (p : Pcb) (ins : Inst) : Except Fault (Int × Pcb) :=
  match ins.opcode with
  | .calc => .ok (0, p)
  | .alloc => p.pgalloc ins.arg0 ins.arg1
  | .malloc => p.pgmalloc ins.arg0 ins.arg1
  | .free => p.pgfreeData ins.arg0
  | .read => p.pgread ins.arg0 ins.arg1 ins.arg2
  | .write => p.pgwrite (ins.arg0.setWidth 8) ins.arg1 ins.arg2

def run (p : Pcb) : Except Fault (Int × Pcb) :=
  match p.code[p.pc]? with
  | none => .ok (1, p)
  | some ins => { p with pc := p.pc + 1 }.exec ins

/-- The instruction the process is at. -/
def Fetches (p : Pcb) (ins : Inst) : Prop := p.code[p.pc]? = some ins

theorem run_eq {p : Pcb} {ins : Inst} (at_ins : p.Fetches ins) :
    p.run = { p with pc := p.pc + 1 }.exec ins := by
  rw [run, at_ins]

end Pcb

theorem symIndex_eq_some {rgid : Int} {i : Fin pagingMaxSymtblSz} :
    symIndex rgid = some i ↔ rgid = i.val := by
  constructor
  · intro inside
    unfold symIndex at inside
    split at inside
    · rename_i bounds
      rw [← Option.some.inj inside]
      exact (Int.toNat_of_nonneg bounds.1).symm
    · cases inside
  · rintro rfl
    exact Vmm.symIndex_val i

theorem symIndex_inside {id : BitVec 32} (inside : id.toNat < pagingMaxSymtblSz) :
    symIndex id.toInt = some ⟨id.toNat, inside⟩ := by
  rw [symIndex_eq_some]
  apply BitVec.toInt_eq_toNat_of_lt
  change id.toNat < 30 at inside
  omega

theorem symIndex_outside {id : BitVec 32} (outside : pagingMaxSymtblSz ≤ id.toNat) :
    symIndex id.toInt = none := by
  apply dif_neg
  rintro ⟨nonneg, below⟩
  have same := BitVec.toInt_eq_toNat_cond id
  have := id.isLt
  change id.toInt < 30 at below
  change 30 ≤ id.toNat at outside
  split at same <;> omega

namespace Vmm
variable (vm : Vmm) {rgid : Int}

theorem symrgVma_inside {i : Fin pagingMaxSymtblSz} (inside : symIndex rgid = some i) :
    vm.symrgVma rgid = .ok (vm.symrg i, vm.getVmaByNum (vm.symrg i).vmaid) := by
  rw [symIndex_eq_some.mp inside]
  have given : getSymrgByid i.val = some i.val := by
    have := i.isLt
    apply if_neg
    omega
  rw [symrgVma, given, derefSymrg, dif_pos i.isLt]
  rfl

/-- An id that is not of the table is dereferenced before it is checked. -/
theorem symrgVma_outside (outside : symIndex rgid = none) :
    ∃ f, vm.symrgVma rgid = .error f ∧ (f = .symtblRange ∨ f = .nullSymrg) := by
  unfold symrgVma getSymrgByid
  split
  · exact ⟨.nullSymrg, rfl, .inr rfl⟩
  · rename_i checked
    have past : ¬ rgid.toNat < pagingMaxSymtblSz := by
      intro inside
      rw [symIndex, dif_pos (by omega)] at outside
      cases outside
    rw [derefSymrg, dif_neg past]
    exact ⟨.symtblRange, rfl, .inl rfl⟩

end Vmm

namespace Pcb
variable (p : Pcb) {rgid : Int} {i : Fin pagingMaxSymtblSz} (offset : BitVec 32)

section Inside
variable (inside : symIndex rgid = some i)
include inside

theorem write_no_vma (value : BitVec 8) (absent : p.vm.getVmaByNum (p.vm.symrg i).vmaid = none) :
    p.write rgid offset value = .ok (-1, p) := by
  rw [write, p.vm.symrgVma_inside inside, absent]
  rfl

theorem write_vma (value : BitVec 8) {vma : VmArea}
    (area : p.vm.getVmaByNum (p.vm.symrg i).vmaid = some vma) : p.write rgid offset value =
      .ok (0, { p with caller := (p.caller.pgSetval ((p.vm.symrg i).addr offset) value).2 }) := by
  rw [write, p.vm.symrgVma_inside inside, area]
  rfl

theorem write_returns (value : BitVec 8) : ∃ r, p.write rgid offset value = .ok r := by
  cases area : p.vm.getVmaByNum (p.vm.symrg i).vmaid with
  | none => exact ⟨_, p.write_no_vma offset inside value area⟩
  | some vma => exact ⟨_, p.write_vma offset inside value area⟩

theorem read_no_vma (absent : p.vm.getVmaByNum (p.vm.symrg i).vmaid = none) :
    p.read rgid offset = .ok (-1, none, p) := by
  rw [read, p.vm.symrgVma_inside inside, absent]
  rfl

theorem read_vma {vma : VmArea} (area : p.vm.getVmaByNum (p.vm.symrg i).vmaid = some vma) :
    p.read rgid offset = .ok (0, (p.caller.pgGetval ((p.vm.symrg i).addr offset)).1,
      { p with caller := (p.caller.pgGetval ((p.vm.symrg i).addr offset)).2 }) := by
  rw [read, p.vm.symrgVma_inside inside, area]
  rfl

theorem read_returns : ∃ r, p.read rgid offset = .ok r := by
  cases area : p.vm.getVmaByNum (p.vm.symrg i).vmaid with
  | none => exact ⟨_, p.read_no_vma offset inside area⟩
  | some vma => exact ⟨_, p.read_vma offset inside area⟩

end Inside

section Outside
variable (outside : symIndex rgid = none)
include outside

theorem write_outside (value : BitVec 8) :
    ∃ f, p.write rgid offset value = .error f ∧ (f = .symtblRange ∨ f = .nullSymrg) := by
  rcases p.vm.symrgVma_outside outside with ⟨f, fault, which⟩
  refine ⟨f, ?_, which⟩
  rw [write, fault]
  rfl

theorem read_outside :
    ∃ f, p.read rgid offset = .error f ∧ (f = .symtblRange ∨ f = .nullSymrg) := by
  rcases p.vm.symrgVma_outside outside with ⟨f, fault, which⟩
  refine ⟨f, ?_, which⟩
  rw [read, fault]
  rfl

end Outside

/-- The program of a process, and where it is in it: what the calls of run leave alone. -/
structure SameProgram (p p' : Pcb) : Prop where
  code : p'.code = p.code
  pc : p'.pc = p.pc

section SameProgram
variable {p : Pcb} {p' : Pcb} {ret : Int}

theorem alloc_program {vmaid : Int} {size : BitVec 32}
    (h : p.alloc vmaid rgid size = .ok (ret, p')) : SameProgram p p' := by
  cases call : p.vm.alloc p.vmemsz vmaid rgid size with
  | error f =>
      rw [alloc, call] at h
      cases h
  | ok r =>
      rw [alloc, call] at h
      obtain ⟨-, rfl⟩ := Prod.mk.inj (Except.ok.inj h)
      exact ⟨rfl, rfl⟩

theorem pgfreeData_program {regIndex : BitVec 32}
    (h : p.pgfreeData regIndex = .ok (ret, p')) : SameProgram p p' := by
  cases call : p.vm.free regIndex.toInt with
  | error f =>
      rw [pgfreeData, call] at h
      cases h
  | ok r =>
      rw [pgfreeData, call] at h
      obtain ⟨-, rfl⟩ := Prod.mk.inj (Except.ok.inj h)
      exact ⟨rfl, rfl⟩

theorem write_program {offset : BitVec 32} {value : BitVec 8}
    (h : p.write rgid offset value = .ok (ret, p')) : SameProgram p p' := by
  cases entry : symIndex rgid with
  | none =>
      obtain ⟨f, fault, -⟩ := p.write_outside offset entry value
      cases fault.symm.trans h
  | some i =>
      cases area : p.vm.getVmaByNum (p.vm.symrg i).vmaid with
      | none =>
          rw [p.write_no_vma offset entry value area] at h
          obtain ⟨-, rfl⟩ := Prod.mk.inj (Except.ok.inj h)
          exact ⟨rfl, rfl⟩
      | some vma =>
          rw [p.write_vma offset entry value area] at h
          obtain ⟨-, rfl⟩ := Prod.mk.inj (Except.ok.inj h)
          exact ⟨rfl, rfl⟩

theorem pgread_program {source offset destination : BitVec 32}
    (h : p.pgread source offset destination = .ok (ret, p')) : SameProgram p p' := by
  cases entry : symIndex source.toInt with
  | none =>
      obtain ⟨f, fault, -⟩ := p.read_outside offset entry
      rw [pgread, fault] at h
      cases h
  | some i =>
      cases area : p.vm.getVmaByNum (p.vm.symrg i).vmaid with
      | none =>
          rw [pgread, p.read_no_vma offset entry area] at h
          obtain ⟨-, rfl⟩ := Prod.mk.inj (Except.ok.inj h)
          exact ⟨rfl, rfl⟩
      | some vma =>
          rw [pgread, p.read_vma offset entry area] at h
          obtain ⟨-, rfl⟩ := Prod.mk.inj (Except.ok.inj h)
          exact ⟨rfl, rfl⟩

theorem exec_program {ins : Inst} (h : p.exec ins = .ok (ret, p')) : SameProgram p p' := by
  unfold exec at h
  cases op : ins.opcode with
  | «calc» =>
      rw [op] at h
      obtain ⟨-, rfl⟩ := Prod.mk.inj (Except.ok.inj h)
      exact ⟨rfl, rfl⟩
  | alloc =>
      rw [op] at h
      exact alloc_program h
  | malloc =>
      rw [op] at h
      exact alloc_program h
  | free =>
      rw [op] at h
      exact pgfreeData_program h
  | read =>
      rw [op] at h
      exact pgread_program h
  | write =>
      rw [op] at h
      exact write_program h

/-- A run that returns does to the program counter what the scheduler's model of it does. -/
theorem run_refines {cfg : Config} {s : Os cfg} (c : Fin cfg.numCpus) {k : Nat}
    (code : p.code = cfg.code k) (pc : p.pc = s.pc k) (h : p.run = .ok (ret, p')) :
    p'.code = cfg.code k ∧ p'.pc = (s.run c k).pc k := by
  rw [Os.run, ← code, ← pc]
  cases fetched : p.code[p.pc]? with
  | none =>
      rw [run, fetched] at h
      obtain ⟨-, rfl⟩ := Prod.mk.inj (Except.ok.inj h)
      exact ⟨rfl, pc⟩
  | some ins =>
      rw [run_eq fetched] at h
      obtain ⟨kept, still⟩ := exec_program h
      refine ⟨kept, still.trans ?_⟩
      simp

end SameProgram

end Pcb
end OsSim
