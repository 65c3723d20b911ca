import OsSim.LoadRoundTrip
import OsSim.ReadConfig
import OsSim.System

/-! The simulator from its files on: main reads the configuration, and ld_routine loads one program
after another as it comes to it. A file is the text under a path. -/
namespace OsSim
open Scanf Transition

/-- What ends the simulator before the threads have their processes. -/
inductive BootFault where
  | usage
  | pathOverrun
  | noConfig
  | config (f : ConfigFault)
  | noProcess (path : List Char)
  | load (f : LoadFault)

def input : List Char := ['i', 'n', 'p', 'u', 't', '/']

/-- The process that ld_routine makes of a line; `prio` has 32 bits there. -/
def bootProcess (files : List Char → Option (List Char)) (u : Uninit) (args : LdArgs) :
    Except BootFault LdProcess :=
  match files args.path with
  | none => .error (.noProcess args.path)
  | some t =>
      match load u t with
      | .error f => .error (.load f)
      | .ok p => .ok ⟨args.startTime.toNat, (args.prio.setWidth 32).toNat, p.priority.toNat, p.text⟩

/-- The processes from `i` on. -/
def bootProcesses (files : List Char → Option (List Char)) (u : Nat → Uninit) (i : Nat) :
    List LdArgs → Except BootFault (List LdProcess)
  | [] => .ok []
  | args :: rest => do
      let p ← bootProcess files (u i) args
      let ps ← bootProcesses files u (i + 1) rest
      return p :: ps

/-- What read_config and load make of the argument of main. -/
def boot (files : List Char → Option (List Char)) (uninit : Nat → LdEntry) (u : Nat → Uninit)
    (argv : List (List Char)) : Except BootFault Config :=
  match argv with
  | [_, arg] =>
      if 100 ≤ (input ++ arg).length then .error .pathOverrun
      else
        match files (input ++ arg) with
        | none => .error .noConfig
        | some t =>
            match readConfig uninit t with
            | .error f => .error (.config f)
            | .ok c => do
                let ps ← bootProcesses files u 0 c.ldProcesses
                return {
                  timeSlot := c.timeSlot.toInt
                  numCpus := c.numCpus.toInt.toNat
                  numProcesses := c.numProcesses.toInt.toNat
                  ldProcesses := fun i => ps.getD i ⟨0, 0, 0, []⟩ }
  | _ => .error .usage

/-- A process and its program, as they are meant. -/
structure Described where
  line : LdEntry
  priority : BitVec 32
  code : List Inst

structure Description where
  timeSlot : BitVec 32
  numCpus : BitVec 32
  processes : List Described

namespace Description
variable {d : Description} {files : List Char → Option (List Char)} {arg : List Char}

/-- The files say it: the configuration has a line for each process, and the file that the line
names is the program; anything may come after the last line, and any white space between words. -/
structure On (d : Description) (files : List Char → Option (List Char)) (arg : List Char) :
    Prop where
  short : arg.length < 94
  few : d.processes.length < 2 ^ 31
  named : ∀ p ∈ d.processes, p.line.Named
  config : ∃ t ws, files (input ++ arg) = some t ∧ Spaced (configWords d.timeSlot d.numCpus
    d.processes.length (d.processes.map Described.line) ++ ws) t
  programs : ∀ p ∈ d.processes, p.code.length < 2 ^ 32 ∧
    ∃ t, files (inputProc ++ p.line.proc) = some t ∧ Written p.priority p.code t

/-- The process has what is meant: the operands that its opcode does not have may be anything. -/
structure Matches (p : Described) (q : LdProcess) : Prop where
  startTime : q.startTime = p.line.startTime.toNat
  prio : q.prio = (p.line.prio.setWidth 32).toNat
  priority : q.priority = p.priority.toNat
  code : q.code.map Inst.written = p.code.map Inst.written

/-- The configuration that the threads run is the one that is described. -/
structure Describes (d : Description) (cfg : Config) : Prop where
  timeSlot : cfg.timeSlot = d.timeSlot.toInt
  numCpus : cfg.numCpus = d.numCpus.toInt.toNat
  numProcesses : cfg.numProcesses = d.processes.length
  process : ∀ i, ∀ p ∈ d.processes[i]?, Matches p (cfg.ldProcesses i)
  others : ∀ i, d.processes[i]? = none → cfg.code i = []

theorem bootProcess_written {p : Described} (few : p.code.length < 2 ^ 32) {t : List Char}
    (file : files (inputProc ++ p.line.proc) = some t) (written : Written p.priority p.code t)
    (u : Uninit) : ∃ q, bootProcess files u p.line.ldArgs = .ok q ∧ Matches p q := by
  rcases load_written u few written with ⟨q, loaded, -, priority, -, code⟩
  refine ⟨⟨p.line.startTime.toNat, (p.line.prio.setWidth 32).toNat, q.priority.toNat, q.text⟩, ?_,
    rfl, rfl, congrArg BitVec.toNat priority, code⟩
  rw [bootProcess, show files p.line.ldArgs.path = some t from file]
  dsimp only
  rw [loaded]
  rfl

theorem bootProcesses_written {ps : List Described}
    (programs : ∀ p ∈ ps, p.code.length < 2 ^ 32 ∧
      ∃ t, files (inputProc ++ p.line.proc) = some t ∧ Written p.priority p.code t)
    (u : Nat → Uninit) (i : Nat) :
    ∃ qs, bootProcesses files u i (ps.map fun p => p.line.ldArgs) = .ok qs ∧
      List.Forall₂ Matches ps qs := by
  induction ps generalizing i with
  | nil => exact ⟨[], rfl, .nil⟩
  | cons p ps ih =>
      rcases programs p List.mem_cons_self with ⟨few, t, file, written⟩
      rcases bootProcess_written few file written (u i) with ⟨q, first, same⟩
      rcases ih (fun p' member => programs p' (List.mem_cons_of_mem _ member)) (i + 1) with
        ⟨qs, rest, all⟩
      refine ⟨q :: qs, ?_, .cons same all⟩
      rw [List.map_cons, bootProcesses, first]
      dsimp only [bind, Except.bind]
      rw [rest]
      rfl

theorem On.boot (on : d.On files arg) (uninit : Nat → LdEntry) (u : Nat → Uninit)
    (command : List Char) :
    ∃ cfg, OsSim.boot files uninit u [command, arg] = .ok cfg ∧ d.Describes cfg := by
  rcases on.config with ⟨t, ws, file, spaced⟩
  have lines : (d.processes.map Described.line).length = d.processes.length := List.length_map _
  have read : readConfig uninit t = .ok ⟨d.timeSlot, d.numCpus, BitVec.ofNat 32 d.processes.length,
      (d.processes.map Described.line).map LdEntry.ldArgs⟩ := by
    rw [← lines] at spaced ⊢
    refine readConfig_written uninit (lines ▸ on.few) (fun e member => ?_) spaced
    rcases List.mem_map.mp member with ⟨p, known, rfl⟩
    exact on.named p known
  rcases bootProcesses_written on.programs u 0 with ⟨qs, loaded, all⟩
  have fits : ¬ 100 ≤ (input ++ arg).length := by
    have short := on.short
    rw [List.length_append]
    change ¬ 100 ≤ 6 + arg.length
    omega
  have count : (BitVec.ofNat 32 d.processes.length).toInt.toNat = d.processes.length := by
    have few := on.few
    rw [BitVec.toInt_eq_toNat_of_lt (by rw [BitVec.toNat_ofNat]; omega), Int.toNat_natCast,
      BitVec.toNat_ofNat]
    omega
  refine ⟨{ timeSlot := d.timeSlot.toInt, numCpus := d.numCpus.toInt.toNat,
            numProcesses := d.processes.length
            ldProcesses := fun i => qs.getD i ⟨0, 0, 0, []⟩ }, ?_, rfl, rfl, rfl, ?_, ?_⟩
  · rw [OsSim.boot, if_neg fits, file]
    dsimp only
    rw [read]
    dsimp only
    rw [List.map_map, show LdEntry.ldArgs ∘ Described.line = fun p => p.line.ldArgs from rfl,
      loaded, count]
    rfl
  · intro i p member
    obtain ⟨inside, rfl⟩ := List.getElem?_eq_some_iff.mp member
    obtain ⟨count, each⟩ := List.forall₂_iff_get.mp all
    dsimp only
    rw [List.getD_eq_getElem _ _ (count ▸ inside)]
    exact each i inside (count ▸ inside)
  · intro i past
    rw [List.getElem?_eq_none_iff, all.length_eq] at past
    exact congrArg LdProcess.code (List.getD_eq_default _ _ past)

end Description
end OsSim
