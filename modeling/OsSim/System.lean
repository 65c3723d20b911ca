import OsSim.ProgramFate
import OsSim.ResponseBound

/-! The simulator with its memory: a call of run executes the instruction on the memory of its
process and on the devices, and a fault ends all threads. A call is one step here; none that
returns changes anything the processes share. -/
namespace OsSim
open Transition

/-- What a process keeps beside its code and its program counter. -/
structure Space where
  regs : Vector (BitVec 32) 10
  mm : Mm
  vm : Vmm

structure System (cfg : Config) where
  machine : Machine cfg
  space : Nat → Space
  mram : Memphy
  activeMswp : Memphy
  fault : Option Fault

namespace Machine
variable {cfg : Config} {m m' : Machine cfg} {a : MachineAction cfg.numCpus} {p : Nat}

/-- The process that the labelled step calls run for. -/
def runs (m : Machine cfg) : MachineAction cfg.numCpus → Option Nat
  | .work (.cpu c) => if (m.os.cpu c).loc = .running then (m.os.cpu c).proc else none
  | .work .loader | .timer _ => none

/-- All instructions executed so far are such. -/
def Executed (m : Machine cfg) (such : Inst → Prop) : Prop :=
  ∀ p, ∀ ins ∈ (cfg.code p).take (m.os.pc p), such ins

/-- No instruction executed so far is one of those that end the simulator. -/
def NoCrash (m : Machine cfg) : Prop := m.Executed fun ins => ¬ ins.Crashes

/-- No instruction executed so far is an access to what lies behind the symbol table. -/
def NoStray (m : Machine cfg) : Prop := m.Executed fun ins => ¬ ins.Strays

def NoHalt (m : Machine cfg) : Prop := m.Executed fun ins => ¬ ins.Halts

theorem noHalt_iff : m.NoHalt ↔ m.NoCrash ∧ m.NoStray := by
  constructor
  · intro sound
    exact ⟨fun p ins member crashes => sound p ins member (.inl crashes),
      fun p ins member strays => sound p ins member (.inr strays)⟩
  · rintro ⟨no_crash, no_stray⟩ p ins member (crashes | strays)
    · exact no_crash p ins member crashes
    · exact no_stray p ins member strays

theorem runs_step (calls : m.runs a = some p) :
    ∃ os, m.step a = some ⟨os, m.timer⟩ ∧ ∀ q, os.pc q =
      if q = p ∧ m.os.pc p < (cfg.code p).length then m.os.pc p + 1 else m.os.pc q := by
  match a with
  | .work .loader | .timer _ => cases calls
  | .work (.cpu c) =>
      obtain ⟨here, proc⟩ := Option.ite_none_right_eq_some.mp calls
      have moved : m.os.cpuWork c = some ((m.os.run c p).setCpu c
          ⟨.slotDue, some p, (m.os.cpu c).timeLeft - 1⟩) := by
        simp only [Os.cpuWork, here, proc]
      refine ⟨_, (by rw [step, Os.step, moved]; rfl), fun q => ?_⟩
      rw [Os.setCpu_pc, Os.run]
      by_cases inside : m.os.pc p < (cfg.code p).length
      · rw [List.getElem?_eq_getElem inside]
        simp [Function.update_apply, inside]
      · rw [List.getElem?_eq_none (not_lt.mp inside), if_neg fun both => inside both.2]
        rfl

theorem quiet_pc (quiet : m.runs a = none) (h : m.step a = some m') : m'.os.pc = m.os.pc := by
  cases step_move h with
  | alone => rfl
  | work moved =>
      cases Os.step_move moved with
      | loader move => cases move <;> rfl
      | cpu move =>
          cases move with
          | run here proc => cases ((if_pos here).trans proc).symm.trans quiet
          | _ => rfl
  | call _ moved | ret _ _ moved | detach _ moved => cases Os.step_move moved <;> rfl

variable {such : Inst → Prop}

theorem Executed.back (h : m.step a = some m') (executed : m'.Executed such) :
    m.Executed such := by
  intro p ins member
  refine executed p ins ((List.take_subset_take_left _ ?_) member)
  cases calls : m.runs a with
  | none => exact (congrFun (quiet_pc calls h) p).ge
  | some q =>
      obtain ⟨os, moved, pc⟩ := runs_step calls
      obtain rfl := Option.some.inj (moved.symm.trans h)
      dsimp only
      rw [pc]
      split
      · rename_i both
        rw [both.1]
        exact Nat.le_succ _
      · exact le_rfl

/-- The call of run is the only step that executes an instruction. -/
theorem executed_run (executed : m.Executed such) (calls : m.runs a = some p)
    (h : m.step a = some m') :
    m'.Executed such ↔ ∀ ins, (cfg.code p)[m.os.pc p]? = some ins → such ins := by
  obtain ⟨os, moved, pc⟩ := runs_step calls
  obtain rfl := Option.some.inj (moved.symm.trans h)
  constructor
  · intro after ins fetched
    have inside := (List.getElem?_eq_some_iff.mp fetched).1
    refine after p ins ?_
    dsimp only
    rw [pc, if_pos ⟨rfl, inside⟩, List.take_add_one, fetched]
    exact List.mem_append_right _ List.mem_cons_self
  · intro next q ins member
    dsimp only at member
    rw [pc] at member
    split at member
    · rename_i both
      rw [both.1, List.take_add_one] at member
      rcases List.mem_append.mp member with before | now
      · exact executed p ins before
      · exact next ins (Option.mem_toList.mp now)
    · exact executed q ins member

/-- A process that has finished has executed all of its code. -/
theorem Executed.finished (executed : m.Executed such) (reach : Reach step (init cfg) m)
    (finished : m.os.Finished p) : ∀ ins ∈ cfg.code p, such ins := by
  have all := executed p
  rwa [(finished_at_end reach finished).1, List.take_length] at all

end Machine

namespace System
variable {cfg : Config}

/-- The process as run finds it. -/
def pcb (s : System cfg) (p : Nat) : Pcb where
  code := cfg.code p
  regs := (s.space p).regs
  pc := s.machine.os.pc p
  caller := ⟨(s.space p).mm, s.mram, s.activeMswp⟩
  vm := (s.space p).vm
  vmemsz := Config.vmemsz

/-- What run leaves of the process and of the devices; the program counter is in the machine. -/
def store (s : System cfg) (p : Nat) (q : Pcb) : System cfg :=
  { s with
    space := Function.update s.space p ⟨q.regs, q.caller.mm, q.vm⟩
    mram := q.caller.mram
    activeMswp := q.caller.activeMswp }

def step (s : System cfg) (a : MachineAction cfg.numCpus) : Option (System cfg) :=
  match s.fault, s.machine.runs a with
  | some _, _ => none
  | none, none => (s.machine.step a).map fun machine => { s with machine }
  | none, some p =>
      match (s.pcb p).run with
      -- the process of the simulator has ended, or what it does is not said by C any more
      | .error f => some { s with fault := some f }
      | .ok (_, q) => (s.machine.step a).map fun machine => { s.store p q with machine }

/-- The system that main starts, with the memory that ld_routine gives each process. -/
def boot (cfg : Config) (space : Nat → Space) (mram activeMswp : Memphy) : System cfg :=
  ⟨Machine.init cfg, space, mram, activeMswp, none⟩

/-- The memory of each process is as init_mm leaves it in blocks full of zeros, or has changed in
symbols only. -/
def Fresh (s : System cfg) : Prop := ∀ p, (s.pcb p).Untouched

/-- The devices, the page tables and the registers of one state are those of the other. -/
structure SameMemory (s s' : System cfg) : Prop where
  mram : s'.mram = s.mram
  activeMswp : s'.activeMswp = s.activeMswp
  mm : ∀ p, (s'.space p).mm = (s.space p).mm
  regs : ∀ p, (s'.space p).regs = (s.space p).regs

section Steps
variable {s s' : System cfg} {m m' : Machine cfg} {a : MachineAction cfg.numCpus} {p : Nat}

theorem SameMemory.refl (s : System cfg) : s.SameMemory s := ⟨rfl, rfl, fun _ => rfl, fun _ => rfl⟩

theorem SameMemory.trans {s₁ s₂ s₃ : System cfg} (first : s₁.SameMemory s₂)
    (second : s₂.SameMemory s₃) : s₁.SameMemory s₃ where
  mram := second.mram.trans first.mram
  activeMswp := second.activeMswp.trans first.activeMswp
  mm p := (second.mm p).trans (first.mm p)
  regs p := (second.regs p).trans (first.regs p)

/-- A call that returns has changed the symbols of its process only. -/
theorem store_same {ret : Int} {q : Pcb} (fresh : s.Fresh) (returned : (s.pcb p).run = .ok (ret, q))
    (machine : Machine cfg) : s.SameMemory { s.store p q with machine } ∧
      Fresh { s.store p q with machine } := by
  obtain ⟨vm, bare, caller, regs, own⟩ : ∃ vm : Vmm, vm.Bare ∧ q.caller = (s.pcb p).caller ∧
      q.regs = (s.pcb p).regs ∧ q.vm = vm := by
    rcases (fresh p).run with ⟨ins, f, -, -, fault⟩ | ⟨ins, ret', vm, -, -, bare, result⟩ |
      ⟨-, result⟩
    · cases fault.symm.trans returned
    · obtain ⟨-, rfl⟩ := Prod.mk.inj (Except.ok.inj (result.symm.trans returned))
      exact ⟨vm, bare, rfl, rfl, rfl⟩
    · obtain ⟨-, rfl⟩ := Prod.mk.inj (Except.ok.inj (result.symm.trans returned))
      exact ⟨_, (fresh p).bare, rfl, rfl, rfl⟩
  have space : ∀ r, ((s.store p q).space r).mm = (s.space r).mm ∧
      ((s.store p q).space r).regs = (s.space r).regs ∧ ((s.store p q).space r).vm.Bare := by
    intro r
    by_cases same : r = p
    · subst same
      dsimp only [store]
      rw [Function.update_self]
      exact ⟨congrArg Caller.mm caller, regs, own ▸ bare⟩
    · dsimp only [store]
      rw [Function.update_of_ne same]
      exact ⟨rfl, rfl, (fresh r).bare⟩
  refine ⟨⟨congrArg Caller.mram caller, congrArg Caller.activeMswp caller,
    fun r => (space r).1, fun r => (space r).2.1⟩, fun r => ⟨(space r).2.2, ?_, rfl⟩⟩
  refine ⟨fun pgn => ?_, ?_⟩
  · have entry := congrArg (fun mm => mm.pgd pgn) (space r).1
    exact fun present => (fresh r).unmapped.absent pgn (entry ▸ present)
  · exact (congrArg Mm.fifoPgn (space r).1).trans (fresh r).unmapped.no_victim

/-- The states in lockstep: nothing has faulted, and the memory is that of the start. -/
structure Sound (s₀ s : System cfg) (m : Machine cfg) : Prop where
  no_fault : s.fault = none
  machine : s.machine = m
  no_halt : m.NoHalt
  fresh : s.Fresh
  same : s₀.SameMemory s

/-- The states after the fault. -/
def Faulted (s₀ s : System cfg) : Prop := s.fault ≠ none ∧ s₀.SameMemory s

theorem step_quiet (no_fault : s.fault = none) (quiet : s.machine.runs a = none) :
    s.step a = (s.machine.step a).map fun machine => { s with machine } := by
  rw [step, no_fault, quiet]

theorem step_call (no_fault : s.fault = none) (calls : s.machine.runs a = some p) :
    s.step a = match (s.pcb p).run with
      | .error f => some { s with fault := some f }
      | .ok (_, q) => (s.machine.step a).map fun machine => { s.store p q with machine } := by
  rw [step, no_fault, calls]

/-- The step lemma, with a case for each way a call of run can end. -/
theorem step_lockstep {s₀ : System cfg} (sound : Sound s₀ s m) (a : MachineAction cfg.numCpus) :
    s.step a = none ∧ m.step a = none ∨ ∃ s' m', s.step a = some s' ∧ m.step a = some m' ∧
      (Sound s₀ s' m' ∨ Faulted s₀ s' ∧ ¬ m'.NoHalt) := by
  obtain ⟨no_fault, rfl, no_halt, fresh, same⟩ := sound
  cases calls : s.machine.runs a with
  | none =>
      rw [step_quiet no_fault calls]
      cases moved : s.machine.step a with
      | none => exact .inl ⟨rfl, rfl⟩
      | some m' =>
          have pc := Machine.quiet_pc calls moved
          refine .inr ⟨_, m', rfl, rfl, .inl ⟨no_fault, rfl, ?_, fun p => ?_, ?_⟩⟩
          · rw [Machine.NoHalt, Machine.Executed, pc]
            exact no_halt
          · exact ⟨(fresh p).bare, (fresh p).unmapped, (fresh p).limit⟩
          · exact ⟨same.mram, same.activeMswp, same.mm, same.regs⟩
  | some p =>
      obtain ⟨os, moved, -⟩ := Machine.runs_step calls
      have halts := Machine.executed_run no_halt calls moved
      rw [step_call no_fault calls, moved]
      right
      rcases (fresh p).run with ⟨ins, f, fetched, halt, fault⟩ |
        ⟨ins, ret, vm, fetched, passes, -, returned⟩ | ⟨ended, returned⟩
      · rw [fault]
        refine ⟨_, _, rfl, rfl, .inr ⟨⟨nofun, ?_⟩, fun sound => ?_⟩⟩
        · exact ⟨same.mram, same.activeMswp, same.mm, same.regs⟩
        · exact halts.mp sound ins fetched halt
      · obtain ⟨kept, fresh'⟩ := store_same fresh returned ⟨os, s.machine.timer⟩
        rw [returned]
        refine ⟨_, _, rfl, rfl, .inl ⟨no_fault, rfl, halts.mpr ?_, fresh', same.trans kept⟩⟩
        intro ins' fetched'
        obtain rfl := Option.some.inj (fetched'.symm.trans fetched)
        exact passes
      · obtain ⟨kept, fresh'⟩ := store_same fresh returned ⟨os, s.machine.timer⟩
        rw [returned]
        refine ⟨_, _, rfl, rfl, .inl ⟨no_fault, rfl, halts.mpr ?_, fresh', same.trans kept⟩⟩
        intro ins' fetched'
        cases ended.symm.trans fetched'

theorem lockstep (s₀ : System cfg) :
    Lockstep step Machine.step (Sound s₀) (Faulted s₀) fun m => ¬ m.NoHalt where
  stuck s a faulted := by
    obtain ⟨f, fault⟩ := Option.ne_none_iff_exists'.mp faulted.1
    rw [step, fault]
  stays m a m' halted h := fun executed => halted (executed.back h)
  both s m a sound := step_lockstep sound a

end Steps

theorem boot_sound {space : Nat → Space} {mram activeMswp : Memphy}
    (fresh : (boot cfg space mram activeMswp).Fresh) :
    Sound (boot cfg space mram activeMswp) (boot cfg space mram activeMswp) (Machine.init cfg) where
  no_fault := rfl
  machine := rfl
  no_halt p ins member := by
    have none : (Machine.init cfg).os.pc p = 0 := rfl
    rw [none, List.take_zero] at member
    cases member
  fresh := fresh
  same := .refl _

/-- A program with an instruction that ends the simulator: whatever the order of the steps, and
whatever the other programs are, if none strays, the simulator does not come to its end. A run
without a fault is short and can go on, and a run with one has come to such an instruction, so that
this is what every run comes to. -/
theorem crash_inevitable (cpus : 0 < cfg.numCpus)
    (prio : ∀ p < cfg.numProcesses, cfg.prio p < maxPrio) (roomy : cfg.Roomy)
    {space : Nat → Space} {mram activeMswp : Memphy}
    (fresh : (boot cfg space mram activeMswp).Fresh)
    (inside : ∀ q, ∀ ins ∈ cfg.code q, ¬ ins.Strays) {p : Nat} (known : p < cfg.numProcesses)
    (crashes : ∃ ins ∈ cfg.code p, ins.Crashes) {as : List (MachineAction cfg.numCpus)}
    {s : System cfg} (runs : run step (boot cfg space mram activeMswp) as = some s)
    (own : ∀ a ∈ as, Machine.Own a) :
    (s.fault = none → as.length < (cfg.deadline p + 1) * Machine.slotSteps cfg ∧
      ∃ a, Machine.Own a ∧ (s.step a).isSome) ∧
    (s.fault ≠ none → ∃ m, run Machine.step (Machine.init cfg) as = some m ∧ ¬ m.NoCrash) := by
  obtain ⟨m, runs', sound | ⟨faulted, halted⟩⟩ :=
    (lockstep (boot cfg space mram activeMswp)).forward (boot_sound fresh) runs
  · refine ⟨fun _ => ?_, fun fault => absurd sound.no_fault fault⟩
    have reach : Reach Machine.step (Machine.init cfg) m := ⟨as, runs'⟩
    have kept := Os.roomy_none_lost prio roomy (Machine.reach_os reach)
    have unfinished : ¬ m.os.Finished p := fun finished => by
      obtain ⟨ins, member, crash⟩ := crashes
      exact sound.no_halt.finished reach finished ins member (.inl crash)
    constructor
    · by_contra long
      exact unfinished (Machine.finished_of_long cpus prio runs' own kept known (not_lt.mp long))
    · obtain ⟨a, own, moves⟩ := Machine.goes_on reach fun ended =>
        unfinished (Machine.finished_of_ended cpus prio reach kept ended known)
      refine ⟨a, own, ?_⟩
      rcases step_lockstep sound a with ⟨-, none⟩ | ⟨s', m', stepped, -⟩
      · rw [none] at moves
        cases moves
      · exact Option.isSome_iff_exists.mpr ⟨s', stepped⟩
  · refine ⟨fun no_fault => absurd no_fault faulted.1, fun _ => ⟨m, runs', fun no_crash => ?_⟩⟩
    have no_stray : m.NoStray := fun q ins member => inside q ins (List.mem_of_mem_take member)
    exact halted (Machine.noHalt_iff.mpr ⟨no_crash, no_stray⟩)

/-- One process, whose only instruction asks for 300 bytes. -/
def soloAlloc : Config where
  timeSlot := 1
  numCpus := 1
  numProcesses := 1
  ldProcesses := fun _ => ⟨0, 0, 0, [⟨.alloc, 300, 0, 0⟩]⟩

instance : NeZero soloAlloc.numCpus := ⟨Nat.succ_ne_zero _⟩

def soloAllocBoot : System soloAlloc :=
  boot soloAlloc (fun _ => ⟨Vector.replicate 10 0, Mm.init, Vmm.initMm⟩) Caller.twoFrames
    Caller.twoFrames

theorem soloAlloc_inside : ∀ p, ∀ ins ∈ soloAlloc.code p, ¬ ins.Strays := by
  intro p ins member
  obtain rfl := List.mem_singleton.mp member
  exact id

theorem soloAllocBoot_fresh : soloAllocBoot.Fresh := fun _ => Pcb.boot_untouched _ _ _ _

theorem crash_inevitable_solo : ∃ s : System soloAlloc, s.fault = none ∧
    run step soloAllocBoot (List.replicate 2 (.work .loader)) = some s ∧
    2 < (soloAlloc.deadline 0 + 1) * Machine.slotSteps soloAlloc ∧
    ∃ a, Machine.Own a ∧ (s.step a).isSome := by
  obtain ⟨s, runs, no_fault⟩ : ∃ s ∈ run step soloAllocBoot (List.replicate 2 (.work .loader)),
      s.fault = none := by
    decide +kernel
  have asks : ∃ ins ∈ soloAlloc.code 0, ins.Crashes := by decide
  have own : ∀ a ∈ List.replicate 2 (.work .loader), @Machine.Own soloAlloc.numCpus a := by decide
  obtain ⟨goes_on, -⟩ := crash_inevitable (by decide) (by decide) (by decide +kernel)
    soloAllocBoot_fresh soloAlloc_inside (by decide) asks runs own
  exact ⟨s, no_fault, runs, goes_on no_fault⟩

end System
end OsSim
