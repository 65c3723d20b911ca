import Mathlib.Algebra.GroupWithZero.Nat
import OsSim.SchedPool
import OsSim.Transition

/-! os.c: the loader and the CPU threads around one scheduler. A step is a thread's next
critical section under queue_lock, its next access to `done`, or a stretch of code on
data that is its own; next_slot and detach_event are separate labels, so that the
timer can be put beside this model. A process is named by its index in the configuration. -/
namespace OsSim
open Transition

inductive Opcode where
  | calc
  | alloc
  | malloc
  | free
  | read
  | write
  deriving DecidableEq, Repr

/-- `struct inst_t`. -/
structure Inst where
  opcode : Opcode
  arg0 : BitVec 32
  arg1 : BitVec 32
  arg2 : BitVec 32
  deriving DecidableEq, Repr

/-- A process of the configuration: its line there, and what load reads from its file. -/
structure LdProcess where
  startTime : Nat
  prio : Nat
  priority : Nat
  code : List Inst

structure Config where
  timeSlot : Int
  numCpus : Nat
  numProcesses : Nat
  ldProcesses : Nat → LdProcess

namespace Config

def prio (cfg : Config) (p : Nat) : Nat := (cfg.ldProcesses p).prio
def priority (cfg : Config) (p : Nat) : Nat := (cfg.ldProcesses p).priority
def code (cfg : Config) (p : Nat) : List Inst := (cfg.ldProcesses p).code
def startTime (cfg : Config) (p : Nat) : Nat := (cfg.ldProcesses p).startTime

end Config

inductive Thread (n : Nat) where
  | cpu (c : Fin n)
  | loader
  deriving DecidableEq

/-- Where cpu_routine stands: at the top of its loop; between the report of a finished
process, or put_proc, and the get_proc that follows; at the recheck; before run; before,
in and after its next_slot; past the break, and past detach_event. -/
inductive CpuLoc where
  | top
  | afterFinish
  | afterPut
  | recheck
  | running
  | slotDue
  | inSlot
  | leaving
  | detached
  deriving DecidableEq, Repr

structure Cpu where
  loc : CpuLoc
  proc : Option Nat
  timeLeft : Int
  deriving DecidableEq

/-- Where ld_routine stands: at a test of its two loop conditions; about to call, and in,
the next_slot of the inner loop; about to add the process; about to call, and in, the
next_slot after that; past `done = 1`, and past detach_event. -/
inductive LdLoc where
  | test
  | early
  | earlySlot
  | ready
  | added
  | addedSlot
  | leaving
  | detached
  deriving DecidableEq, Repr

structure Loader where
  loc : LdLoc
  i : Nat
  deriving DecidableEq

/-- What the threads report, and each call of run with the instruction it executed. -/
inductive Event (n : Nat) where
  | loaded (p : Nat)
  | dispatched (c : Fin n) (p : Nat)
  | ran (c : Fin n) (p : Nat) (ins : Option Inst)
  | putBack (c : Fin n) (p : Nat)
  | finished (c : Fin n) (p : Nat)
  | stopped (c : Fin n)
  deriving DecidableEq

/-- The state the threads share and their locals; `log` has the newest event first. -/
structure Os (cfg : Config) where
  sched : Sched Nat
  pc : Nat → Nat
  cpu : Fin cfg.numCpus → Cpu
  ld : Loader
  done : Bool
  log : List (Event cfg.numCpus)

/-- What a thread does with timer.c: call next_slot, return from it, detach_event. -/
inductive TimerCall where
  | call
  | ret
  | detach
  deriving DecidableEq

/-- A thread's next step outside timer.c, or its next one with it. -/
inductive OsAction (n : Nat) where
  | work (t : Thread n)
  | timer (k : TimerCall) (t : Thread n)
  deriving DecidableEq

def OsAction.thread {n : Nat} : OsAction n → Thread n
  | .work t | .timer _ t => t

def CpuLoc.after : TimerCall → CpuLoc → Option CpuLoc
  | .call, .slotDue => some .inSlot
  | .ret, .inSlot => some .top
  | .detach, .leaving => some .detached
  | _, _ => none

def LdLoc.after : TimerCall → LdLoc → Option LdLoc
  | .call, .early => some .earlySlot
  | .call, .added => some .addedSlot
  | .ret, .earlySlot | .ret, .addedSlot => some .test
  | .detach, .leaving => some .detached
  | _, _ => none

namespace Os
variable {cfg : Config}

def init (cfg : Config) : Os cfg where
  sched := (Sched.boot Nat).initScheduler
  pc := fun _ => 0
  cpu := fun _ => ⟨.top, none, 0⟩
  ld := ⟨.test, 0⟩
  done := false
  log := []

def setCpu (s : Os cfg) (c : Fin cfg.numCpus) (u : Cpu) : Os cfg :=
  { s with cpu := Function.update s.cpu c u }

def note (s : Os cfg) (e : Event cfg.numCpus) : Os cfg := { s with log := e :: s.log }

/-- `proc = get_proc()`, after which the CPU stands at `loc`. -/
def getProc (s : Os cfg) (c : Fin cfg.numCpus) (timeLeft : Int) (loc : Option Nat → CpuLoc) :
    Os cfg :=
  let r := s.sched.getMlqProc cfg.priority
  { s with sched := r.2 }.setCpu c ⟨loc r.1, r.1, timeLeft⟩

/-- run as the scheduler sees it: the instruction at pc is executed and pc moves on. -/
def run (s : Os cfg) (c : Fin cfg.numCpus) (p : Nat) : Os cfg :=
  match (cfg.code p)[s.pc p]? with
  | none => s.note (.ran c p none)
  | some ins => { s with pc := Function.update s.pc p (s.pc p + 1) }.note (.ran c p (some ins))

/-- One iteration of cpu_routine's loop, a stretch at a time. -/
def cpuWork (s : Os cfg) (c : Fin cfg.numCpus) : Option (Os cfg) :=
  let u := s.cpu c
  match u.loc, u.proc with
  | .top, none => some (s.getProc c u.timeLeft fun r => if r.isNone then .slotDue else .recheck)
  | .top, some p =>
      if s.pc p = (cfg.code p).length then
        some ((s.setCpu c { u with loc := .afterFinish }).note (.finished c p))
      else if u.timeLeft = 0 then
        some (({ s with sched := s.sched.putMlqProc cfg.prio p }.setCpu c
          { u with loc := .afterPut }).note (.putBack c p))
      else some (s.setCpu c { u with loc := .recheck })
  | .afterFinish, _ => some (s.getProc c 0 fun _ => .recheck)
  | .afterPut, _ => some (s.getProc c u.timeLeft fun _ => .recheck)
  | .recheck, none =>
      if s.done then some ((s.setCpu c { u with loc := .leaving }).note (.stopped c))
      else some (s.setCpu c { u with loc := .slotDue })
  | .recheck, some p =>
      if u.timeLeft = 0 then
        some ((s.setCpu c { u with loc := .running, timeLeft := cfg.timeSlot }).note
          (.dispatched c p))
      else some (s.setCpu c { u with loc := .running })
  | .running, some p =>
      some ((s.run c p).setCpu c { u with loc := .slotDue, timeLeft := u.timeLeft - 1 })
  | _, _ => none

/-- ld_routine, where the clock reads `now`. -/
def ldWork (now : Nat) (s : Os cfg) : Option (Os cfg) :=
  match s.ld.loc with
  | .test =>
      if s.ld.i < cfg.numProcesses then
        if now < cfg.startTime s.ld.i then some { s with ld := { s.ld with loc := .early } }
        else some { s with ld := { s.ld with loc := .ready } }
      else some { s with done := true, ld := { s.ld with loc := .leaving } }
  | .ready =>
      some ({ s with
        sched := s.sched.addMlqProc cfg.prio s.ld.i
        ld := ⟨.added, s.ld.i + 1⟩ }.note (.loaded s.ld.i))
  | _ => none

/-- The step a label stands for, where the clock reads `now`. -/
def step (now : Nat) (s : Os cfg) : OsAction cfg.numCpus → Option (Os cfg)
  | .work (.cpu c) => s.cpuWork c
  | .work .loader => s.ldWork now
  | .timer k (.cpu c) => ((s.cpu c).loc.after k).map fun loc => s.setCpu c { s.cpu c with loc }
  | .timer k .loader => (s.ld.loc.after k).map fun loc => { s with ld := { s.ld with loc } }

/-- The threads with no slot barrier between them: next_slot returns at any time and
the clock reads anything. Every interleaving under the barrier is one of these. -/
def free (s : Os cfg) (a : Nat × OsAction cfg.numCpus) : Option (Os cfg) := s.step a.1 a.2

@[simp] theorem setCpu_same (s : Os cfg) (c : Fin cfg.numCpus) (u : Cpu) :
    (s.setCpu c u).cpu c = u := by
  simp [setCpu]

theorem setCpu_cpu (s : Os cfg) (c d : Fin cfg.numCpus) (u : Cpu) :
    (s.setCpu c u).cpu d = if d = c then u else s.cpu d := by
  simp [setCpu, Function.update_apply]

@[simp] theorem setCpu_sched (s : Os cfg) (c) (u : Cpu) : (s.setCpu c u).sched = s.sched := rfl
@[simp] theorem setCpu_pc (s : Os cfg) (c) (u : Cpu) : (s.setCpu c u).pc = s.pc := rfl
@[simp] theorem setCpu_ld (s : Os cfg) (c) (u : Cpu) : (s.setCpu c u).ld = s.ld := rfl
@[simp] theorem setCpu_done (s : Os cfg) (c) (u : Cpu) : (s.setCpu c u).done = s.done := rfl
@[simp] theorem setCpu_log (s : Os cfg) (c) (u : Cpu) : (s.setCpu c u).log = s.log := rfl
@[simp] theorem note_sched (s : Os cfg) (e) : (s.note e).sched = s.sched := rfl
@[simp] theorem note_pc (s : Os cfg) (e) : (s.note e).pc = s.pc := rfl
@[simp] theorem note_cpu (s : Os cfg) (e) : (s.note e).cpu = s.cpu := rfl
@[simp] theorem note_ld (s : Os cfg) (e) : (s.note e).ld = s.ld := rfl
@[simp] theorem note_done (s : Os cfg) (e) : (s.note e).done = s.done := rfl
@[simp] theorem note_log (s : Os cfg) (e) : (s.note e).log = e :: s.log := rfl

theorem run_frame (s : Os cfg) (c : Fin cfg.numCpus) (p : Nat) :
    (s.run c p).sched = s.sched ∧ (s.run c p).cpu = s.cpu ∧ (s.run c p).ld = s.ld ∧
      (s.run c p).done = s.done ∧ ∃ ins, (s.run c p).log = .ran c p ins :: s.log := by
  unfold run
  split
  · exact ⟨rfl, rfl, rfl, rfl, _, rfl⟩
  · exact ⟨rfl, rfl, rfl, rfl, _, rfl⟩

section Moves
variable {s s' : Os cfg} {c : Fin cfg.numCpus}

/-- Everything a CPU's own step can be, with what it asks of the state before. -/
inductive CpuMove (s : Os cfg) (c : Fin cfg.numCpus) : Os cfg → Prop
  | load : (s.cpu c).loc = .top → (s.cpu c).proc = none →
      CpuMove s c (s.getProc c (s.cpu c).timeLeft fun r => if r.isNone then .slotDue else .recheck)
  | report {p} : (s.cpu c).loc = .top → (s.cpu c).proc = some p → s.pc p = (cfg.code p).length →
      CpuMove s c ((s.setCpu c ⟨.afterFinish, some p, (s.cpu c).timeLeft⟩).note (.finished c p))
  | expire {p} : (s.cpu c).loc = .top → (s.cpu c).proc = some p →
      s.pc p ≠ (cfg.code p).length → (s.cpu c).timeLeft = 0 →
      CpuMove s c (({ s with sched := s.sched.putMlqProc cfg.prio p }.setCpu c
        ⟨.afterPut, some p, 0⟩).note (.putBack c p))
  | resume {p} : (s.cpu c).loc = .top → (s.cpu c).proc = some p →
      s.pc p ≠ (cfg.code p).length → (s.cpu c).timeLeft ≠ 0 →
      CpuMove s c (s.setCpu c ⟨.recheck, some p, (s.cpu c).timeLeft⟩)
  | afterFinish : (s.cpu c).loc = .afterFinish → CpuMove s c (s.getProc c 0 fun _ => .recheck)
  | afterPut : (s.cpu c).loc = .afterPut →
      CpuMove s c (s.getProc c (s.cpu c).timeLeft fun _ => .recheck)
  | stop : (s.cpu c).loc = .recheck → (s.cpu c).proc = none → s.done = true →
      CpuMove s c ((s.setCpu c ⟨.leaving, none, (s.cpu c).timeLeft⟩).note (.stopped c))
  | skip : (s.cpu c).loc = .recheck → (s.cpu c).proc = none → s.done = false →
      CpuMove s c (s.setCpu c ⟨.slotDue, none, (s.cpu c).timeLeft⟩)
  | dispatch {p} : (s.cpu c).loc = .recheck → (s.cpu c).proc = some p →
      (s.cpu c).timeLeft = 0 →
      CpuMove s c ((s.setCpu c ⟨.running, some p, cfg.timeSlot⟩).note (.dispatched c p))
  | proceed {p} : (s.cpu c).loc = .recheck → (s.cpu c).proc = some p →
      (s.cpu c).timeLeft ≠ 0 → CpuMove s c (s.setCpu c ⟨.running, some p, (s.cpu c).timeLeft⟩)
  | run {p} : (s.cpu c).loc = .running → (s.cpu c).proc = some p →
      CpuMove s c ((s.run c p).setCpu c ⟨.slotDue, some p, (s.cpu c).timeLeft - 1⟩)

theorem cpuWork_move (h : s.cpuWork c = some s') : CpuMove s c s' := by
  rcases eq : s.cpu c with ⟨loc, proc, timeLeft⟩
  have at_loc : (s.cpu c).loc = loc := by rw [eq]
  have has_proc : (s.cpu c).proc = proc := by rw [eq]
  have left : (s.cpu c).timeLeft = timeLeft := by rw [eq]
  simp only [cpuWork, eq] at h
  split at h
  · exact Option.some.inj h ▸ left ▸ .load at_loc has_proc
  · split at h
    · rename_i ended
      exact Option.some.inj h ▸ left ▸ .report at_loc has_proc ended
    · rename_i more
      split at h
      · rename_i zero
        subst zero
        exact Option.some.inj h ▸ .expire at_loc has_proc more left
      · rename_i nonzero
        exact Option.some.inj h ▸ left ▸ .resume at_loc has_proc more (left ▸ nonzero)
  · exact Option.some.inj h ▸ .afterFinish at_loc
  · exact Option.some.inj h ▸ left ▸ .afterPut at_loc
  · split at h
    · rename_i ended
      exact Option.some.inj h ▸ left ▸ .stop at_loc has_proc ended
    · rename_i going
      exact Option.some.inj h ▸ left ▸ .skip at_loc has_proc (by simpa using going)
  · split at h
    · rename_i zero
      exact Option.some.inj h ▸ .dispatch at_loc has_proc (left.trans zero)
    · rename_i nonzero
      exact Option.some.inj h ▸ left ▸ .proceed at_loc has_proc (left ▸ nonzero)
  · exact Option.some.inj h ▸ left ▸ .run at_loc has_proc
  · cases h

theorem CpuMove.frame (move : CpuMove s c s') :
    s'.ld = s.ld ∧ s'.done = s.done ∧ ∀ d ≠ c, s'.cpu d = s.cpu d := by
  have others : ∀ (t : Os cfg) u, ∀ d ≠ c, (t.setCpu c u).cpu d = t.cpu d := fun t u d other => by
    rw [setCpu_cpu, if_neg other]
  cases move with
  | @run p =>
      obtain ⟨_, cpu, ld, done, _⟩ := s.run_frame c p
      refine ⟨ld, done, ?_⟩
      intro d other
      rw [others _ _ d other, cpu]
  | _ => exact ⟨rfl, rfl, others _ _⟩

theorem CpuMove.loc (move : CpuMove s c s') :
    (s.cpu c).loc ≠ .inSlot ∧ (s.cpu c).loc ≠ .detached := by
  cases move <;> simp [*]

inductive LdMove (now : Nat) (s : Os cfg) : Os cfg → Prop
  | early : s.ld.loc = .test → s.ld.i < cfg.numProcesses → now < cfg.startTime s.ld.i →
      LdMove now s { s with ld := ⟨.early, s.ld.i⟩ }
  | due : s.ld.loc = .test → s.ld.i < cfg.numProcesses → ¬ now < cfg.startTime s.ld.i →
      LdMove now s { s with ld := ⟨.ready, s.ld.i⟩ }
  | finish : s.ld.loc = .test → ¬ s.ld.i < cfg.numProcesses →
      LdMove now s { s with done := true, ld := ⟨.leaving, s.ld.i⟩ }
  | add : s.ld.loc = .ready → LdMove now s ({ s with
      sched := s.sched.addMlqProc cfg.prio s.ld.i, ld := ⟨.added, s.ld.i + 1⟩ }.note
        (.loaded s.ld.i))

theorem ldWork_move {now : Nat} (h : s.ldWork now = some s') : LdMove now s s' := by
  unfold ldWork at h
  split at h
  · rename_i here
    split at h
    · rename_i inside
      split at h
      · rename_i early
        exact Option.some.inj h ▸ .early here inside early
      · rename_i due
        exact Option.some.inj h ▸ .due here inside due
    · rename_i past
      exact Option.some.inj h ▸ .finish here past
  · rename_i here
    exact Option.some.inj h ▸ .add here
  · cases h

/-- Everything a step can be. -/
inductive Move (now : Nat) (s : Os cfg) : OsAction cfg.numCpus → Os cfg → Prop
  | cpu {c : Fin cfg.numCpus} {t : Os cfg} : CpuMove s c t → Move now s (.work (.cpu c)) t
  | loader {t : Os cfg} : LdMove now s t → Move now s (.work .loader) t
  | cpuTimer {k loc} {c : Fin cfg.numCpus} : (s.cpu c).loc.after k = some loc →
      Move now s (.timer k (.cpu c)) (s.setCpu c ⟨loc, (s.cpu c).proc, (s.cpu c).timeLeft⟩)
  | ldTimer {k loc} : s.ld.loc.after k = some loc →
      Move now s (.timer k .loader) { s with ld := ⟨loc, s.ld.i⟩ }

theorem step_move {now : Nat} {a : OsAction cfg.numCpus} (h : s.step now a = some s') :
    Move now s a s' := by
  match a with
  | .work (.cpu c) => exact .cpu (cpuWork_move h)
  | .work .loader => exact .loader (ldWork_move h)
  | .timer k (.cpu c) =>
      obtain ⟨loc, after, eq⟩ := Option.map_eq_some_iff.mp h
      exact eq ▸ .cpuTimer after
  | .timer k .loader =>
      obtain ⟨loc, after, eq⟩ := Option.map_eq_some_iff.mp h
      exact eq ▸ .ldTimer after

end Moves
end Os
end OsSim
