import OsSim.Lifecycle

/-! What ownership buys: a process is in one place, its code is executed once, in order,
and nothing happens to it once it has been reported finished. -/
namespace OsSim
open Transition

namespace Event
variable {n : Nat}

/-- The instruction the event shows to have been executed for a process. -/
def executedFor (p : Nat) : Event n → Option Inst
  | .ran _ q ins => if q = p then ins else none
  | _ => none

def Concerns (p : Nat) : Event n → Prop
  | .loaded q | .dispatched _ q | .ran _ q _ | .putBack _ q | .finished _ q => q = p
  | .stopped _ => False

end Event

/-- The instructions executed for a process, oldest first. -/
def executed {n : Nat} (p : Nat) (log : List (Event n)) : List Inst :=
  (log.filterMap (Event.executedFor p)).reverse

theorem executed_cons {n : Nat} (p : Nat) (e : Event n) (log : List (Event n)) :
    executed p (e :: log) = executed p log ++ (e.executedFor p).toList := by
  unfold executed
  cases eq : e.executedFor p <;> simp [eq]

namespace Os
variable {cfg : Config}

/-- No process is at two places: two CPUs, a CPU and a queue, or two queue slots. -/
structure Exclusive (s : Os cfg) : Prop where
  cpus : ∀ c d p, (s.cpu c).held = some p → (s.cpu d).held = some p → c = d
  cpu_queue : ∀ c p, (s.cpu c).held = some p → ∀ l < maxPrio, p ∉ s.sched.level l
  queues : ∀ l < maxPrio, ∀ k < maxPrio, ∀ p,
    p ∈ s.sched.level l → p ∈ s.sched.level k → l = k
  slots : ∀ l < maxPrio, (s.sched.level l).Nodup

theorem Tracks.exclusive {st : Nat → Stage cfg.numCpus} {s : Os cfg} (t : Tracks st s) :
    s.Exclusive where
  cpus c d p hc hd := by
    rw [t.held] at hc hd
    exact Stage.held.inj (hc.symm.trans hd)
  cpu_queue c p hc l inside := by
    rw [t.held] at hc
    rw [t.waiting l inside, hc]
    nofun
  queues l hl k hk p first second :=
    ((t.waiting l hl p).mp first).2.symm.trans ((t.waiting k hk p).mp second).2
  slots := t.nodup

/-- The log shows, for every process, its code up to its program counter. -/
def InOrder (s : Os cfg) : Prop :=
  ∀ p, executed p s.log = (cfg.code p).take (s.pc p) ∧ s.pc p ≤ (cfg.code p).length

/-- At a report of completion the whole code has been executed, and no later event
concerns the process. -/
def Sealed (s : Os cfg) : Prop :=
  ∀ c p newer older, s.log = newer ++ .finished c p :: older →
    executed p older = cfg.code p ∧ ∀ e ∈ newer, ¬ e.Concerns p

/-- Everything a step can write to the log and the program counters. -/
inductive Writes (s s' : Os cfg) : Prop
  | silent : s'.log = s.log → s'.pc = s.pc → Writes s s'
  | event (e) : s'.log = e :: s.log → s'.pc = s.pc → (∀ p, e.executedFor p = none) →
      (∀ p, e.Concerns p → ¬ s.Finished p) →
      (∀ c p, e = .finished c p → s.pc p = (cfg.code p).length) → Writes s s'
  | executed (c p ins) : s'.log = .ran c p (some ins) :: s.log →
      s'.pc = Function.update s.pc p (s.pc p + 1) → (cfg.code p)[s.pc p]? = some ins →
      ¬ s.Finished p → Writes s s'

section Steps
variable {st : Nat → Stage cfg.numCpus} {s s' : Os cfg}

theorem Tracks.not_finished (t : Tracks st s) {c : Fin cfg.numCpus} {p : Nat}
    (here : (s.cpu c).loc ≠ .afterFinish) (here' : (s.cpu c).loc ≠ .afterPut)
    (proc : (s.cpu c).proc = some p) : ¬ s.Finished p := by
  rw [t.finished, (t.held c p).mp ((Cpu.held_eq here here').trans proc)]
  nofun

theorem Tracks.run_writes (t : Tracks st s) {c : Fin cfg.numCpus} {p : Nat}
    (here : (s.cpu c).loc = .running) (proc : (s.cpu c).proc = some p) (u : Cpu) :
    Writes s ((s.run c p).setCpu c u) := by
  have own : ¬ s.Finished p := t.not_finished (by rw [here]; nofun) (by rw [here]; nofun) proc
  unfold Os.run
  split
  · refine .event (.ran c p none) rfl rfl ?_ ?_ nofun
    · intro q
      simp [Event.executedFor]
    · intro q eq
      cases eq
      exact own
  · rename_i ins fetched
    exact .executed c p ins rfl rfl fetched own

theorem Tracks.writes (t : Tracks st s) {now : Nat} {a : OsAction cfg.numCpus}
    (h : s.step now a = some s') : Writes s s' := by
  cases step_move h with
  | cpu move =>
      cases move with
      | load => exact .silent rfl rfl
      | @report p here proc ended =>
          refine .event _ rfl rfl (fun _ => rfl) ?_ ?_
          · intro q eq
            cases eq
            exact t.not_finished (by rw [here]; nofun) (by rw [here]; nofun) proc
          · intro d q eq
            cases eq
            exact ended
      | @expire p here proc =>
          refine .event _ rfl rfl (fun _ => rfl) ?_ nofun
          intro q eq
          cases eq
          exact t.not_finished (by rw [here]; nofun) (by rw [here]; nofun) proc
      | resume => exact .silent rfl rfl
      | afterFinish => exact .silent rfl rfl
      | afterPut => exact .silent rfl rfl
      | stop => exact .event _ rfl rfl (fun _ => rfl) nofun nofun
      | skip => exact .silent rfl rfl
      | @dispatch p here proc =>
          refine .event _ rfl rfl (fun _ => rfl) ?_ nofun
          intro q eq
          cases eq
          exact t.not_finished (by rw [here]; nofun) (by rw [here]; nofun) proc
      | proceed => exact .silent rfl rfl
      | run here proc => exact t.run_writes here proc _
  | loader move =>
      cases move with
      | early => exact .silent rfl rfl
      | due => exact .silent rfl rfl
      | finish => exact .silent rfl rfl
      | add here =>
          refine .event _ rfl rfl (fun _ => rfl) ?_ nofun
          intro q eq
          cases eq
          rw [t.finished, (t.unborn _).mpr le_rfl]
          nofun
  | cpuTimer => exact .silent rfl rfl
  | ldTimer => exact .silent rfl rfl

theorem InOrder.step (inv : s.InOrder) (w : Writes s s') : s'.InOrder := by
  intro q
  obtain ⟨shown, bound⟩ := inv q
  cases w with
  | silent log pc =>
      rw [log, pc]
      exact ⟨shown, bound⟩
  | event e log pc quiet _ _ =>
      rw [log, pc, executed_cons, quiet, Option.toList_none, List.append_nil]
      exact ⟨shown, bound⟩
  | executed c p ins log pc fetched _ =>
      rw [log, pc, executed_cons]
      by_cases same : q = p
      · subst same
        obtain ⟨inside, fetched⟩ := List.getElem?_eq_some_iff.mp fetched
        rw [Function.update_self, shown]
        refine ⟨?_, inside⟩
        simp [Event.executedFor, List.take_add_one, inside, fetched]
      · rw [Function.update_of_ne same]
        simp only [Event.executedFor, if_neg (Ne.symm same), Option.toList_none, List.append_nil]
        exact ⟨shown, bound⟩

/-- The new event is not about a finished process, and a new report comes with the
whole code executed. -/
theorem Sealed.cons (inv : s.Sealed) {e : Event cfg.numCpus} (log : s'.log = e :: s.log)
    (fresh : ∀ p, e.Concerns p → ¬ s.Finished p)
    (whole : ∀ c p, e = .finished c p → executed p s.log = cfg.code p) : s'.Sealed := by
  intro c p newer older eq
  rw [log] at eq
  cases newer with
  | nil =>
      obtain ⟨rfl, rfl⟩ := List.cons.inj eq
      exact ⟨whole c p rfl, nofun⟩
  | cons e' newer =>
      obtain ⟨rfl, rest⟩ := List.cons.inj eq
      obtain ⟨all, later⟩ := inv c p newer older rest
      have before : s.Finished p := ⟨c, by rw [rest]; simp⟩
      refine ⟨all, ?_⟩
      intro e'' member
      rcases List.mem_cons.mp member with rfl | member
      · exact fun about => fresh p about before
      · exact later e'' member

theorem Sealed.step (inv : s.Sealed) (order : s.InOrder) (w : Writes s s') : s'.Sealed := by
  cases w with
  | silent log _ => exact fun c p newer older eq => inv c p newer older (log ▸ eq)
  | event e log _ _ fresh ended =>
      apply inv.cons log fresh
      intro c p eq
      rw [(order p).1, ended c p eq, List.take_length]
  | executed c p ins log _ _ own => exact inv.cons log (fun q eq => eq ▸ own) nofun

end Steps

theorem reach_inOrder {s : Os cfg} (reach : Reach free (Os.init cfg) s) :
    s.InOrder ∧ s.Sealed := by
  have start : (Os.init cfg).InOrder ∧ (Os.init cfg).Sealed :=
    ⟨fun p => ⟨rfl, Nat.zero_le _⟩, fun c p newer older eq => by simp [Os.init] at eq⟩
  have both : ∃ st, Tracks st s ∧ s.InOrder ∧ s.Sealed := by
    refine reach.invariant (P := fun s => ∃ st, Tracks st s ∧ s.InOrder ∧ s.Sealed) ?_
      ⟨_, .init, start⟩
    rintro s a s' ⟨st, t, order, sealed⟩ h
    obtain ⟨st', t', _⟩ := t.step h
    exact ⟨st', t', order.step (t.writes h), sealed.step order (t.writes h)⟩
  obtain ⟨_, _, order, sealed⟩ := both
  exact ⟨order, sealed⟩

/-- The instructions executed are a prefix of the code; a report of completion comes after
all of them and is the last the log says of the process, which is then nowhere. -/
structure ExactlyOnce (s : Os cfg) : Prop where
  in_order : ∀ p, executed p s.log <+: cfg.code p
  sealed : s.Sealed
  gone : ∀ p, s.Finished p →
    (∀ c, (s.cpu c).held ≠ some p) ∧ ∀ l < maxPrio, p ∉ s.sched.level l

/-- Exclusive ownership and exactly-once execution, in every interleaving. -/
theorem exclusive_exactly_once {s : Os cfg} (reach : Reach free (Os.init cfg) s) :
    s.Exclusive ∧ s.ExactlyOnce := by
  obtain ⟨st, t⟩ := reach_tracks reach
  obtain ⟨order, sealed⟩ := reach_inOrder reach
  refine ⟨t.exclusive, ?_, sealed, ?_⟩
  · intro p
    rw [(order p).1]
    exact List.take_prefix _ _
  · intro p finished
    rw [t.finished] at finished
    constructor
    · intro c holds
      rw [t.held, finished] at holds
      cases holds
    · intro l inside member
      rw [t.waiting l inside, finished] at member
      cases member.1

def shared : Config where
  timeSlot := 1
  numCpus := 2
  numProcesses := 1
  ldProcesses := fun _ => ⟨0, 0, 0, List.replicate 2 ⟨.calc, 0, 0, 0⟩⟩

instance : NeZero shared.numCpus := ⟨Nat.succ_ne_zero _⟩

def sharedSlot (works : List (Thread 2)) : List (OsAction 2) :=
  let threads := [.loader, .cpu 0, .cpu 1]
  works.map .work ++ threads.map (.timer .call) ++ threads.map (.timer .ret)

/-- Between put_proc and get_proc of the first CPU the second one takes the process. -/
def sharedRun : List (OsAction 2) :=
  sharedSlot [.loader, .loader, .cpu 0, .cpu 0, .cpu 0, .cpu 1] ++
    [.work (.cpu 0)] ++ List.replicate 3 (.work (.cpu 1)) ++ List.replicate 2 (.work (.cpu 0)) ++
    [.timer .call (.cpu 1), .timer .ret (.cpu 1), .work (.cpu 1)]

theorem exclusive_exactly_once_shared : ∃ s : Os shared, Reach free (Os.init shared) s ∧
    s.Finished 0 ∧ (∃ c, .putBack c 0 ∈ s.log) ∧ s.Exclusive ∧ s.ExactlyOnce := by
  obtain ⟨s, reached, finished, put_back⟩ :
      ∃ s ∈ Transition.run free (Os.init shared) (sharedRun.map (0, ·)),
        s.Finished 0 ∧ ∃ c, .putBack c 0 ∈ s.log := by
    decide +kernel
  exact ⟨s, ⟨_, reached⟩, finished, put_back, exclusive_exactly_once ⟨_, reached⟩⟩

end Os
end OsSim
