import OsSim.Lifecycle

/-! The end of the simulation: the loader has set done and no process is left. Only an
iteration that has just given up a process comes to the test of done. -/
namespace OsSim
open Transition

/-- The next place of a CPU when no process is left and done is set. -/
def CpuLoc.idleNext : CpuLoc → CpuLoc
  | .top | .running => .slotDue
  | .slotDue => .inSlot
  | .inSlot => .top
  | .afterFinish | .afterPut => .recheck
  | .recheck => .leaving
  | .leaving | .detached => .detached

/-- The CPU has given up its process in this iteration and not yet tested done. -/
def CpuLoc.BeforeTest (loc : CpuLoc) : Prop :=
  loc = .afterFinish ∨ loc = .afterPut ∨ loc = .recheck

def CpuLoc.InLoop (loc : CpuLoc) : Prop := loc ≠ .leaving ∧ loc ≠ .detached

instance : DecidablePred CpuLoc.InLoop := fun _ => inferInstanceAs (Decidable (_ ∧ _))

def CpuLoc.Around (loc : CpuLoc) : Prop := loc = .top ∨ loc = .slotDue ∨ loc = .inSlot

theorem CpuLoc.Around.iterate {loc : CpuLoc} (h : loc.Around) (k : Nat) :
    (idleNext^[k] loc).Around := by
  induction k with
  | zero => exact h
  | succ k ih =>
      rw [Function.iterate_succ_apply']
      rcases ih with eq | eq | eq <;> rw [eq] <;> simp [idleNext, Around]

theorem CpuLoc.BeforeTest.iterate {loc : CpuLoc} (h : loc.BeforeTest) (k : Nat) :
    (idleNext^[k] loc).BeforeTest ∨ ¬ (idleNext^[k] loc).InLoop := by
  induction k with
  | zero => exact .inl h
  | succ k ih =>
      rw [Function.iterate_succ_apply']
      rcases ih with before | out
      · rcases before with eq | eq | eq <;> rw [eq] <;> simp [idleNext, BeforeTest, InLoop]
      · right
        cases eq : idleNext^[k] loc <;> simp [eq, InLoop, idleNext] at out ⊢

theorem CpuLoc.BeforeTest.out {loc : CpuLoc} (h : loc.BeforeTest) {k : Nat} (enough : 3 ≤ k) :
    idleNext^[k] loc = .detached := by
  obtain ⟨j, rfl⟩ := Nat.exists_eq_add_of_le enough
  have fixed : idleNext^[j] .detached = .detached := Function.iterate_fixed rfl j
  rw [Nat.add_comm, Function.iterate_add_apply]
  rcases h with rfl | rfl | rfl <;> exact fixed

namespace Os
variable {cfg : Config}

/-- done is set, every added process has been reported finished, no queue holds one. -/
structure Over (s : Os cfg) : Prop where
  done : s.done = true
  finished : ∀ p < s.ld.i, s.Finished p
  empty : ∀ l < maxPrio, s.sched.level l = []

/-- The CPU leaves its loop in the iteration it is in or about to start: it never goes to
next_slot from within it, is never blocked, and has detached after a bounded number of its
own steps, whatever the other threads do meanwhile. -/
structure LeavesLoop (s : Os cfg) (c : Fin cfg.numCpus) : Prop where
  never_round : ∀ s', Reach free s s' → ∀ now s'', s'.step now (.work (.cpu c)) = some s'' →
    (s''.cpu c).loc ≠ .slotDue
  never_stuck : ∀ s', Reach free s s' → (s'.cpu c).loc ≠ .detached →
    ∃ now a, a.thread = .cpu c ∧ (s'.step now a).isSome
  soon : ∃ k, ∀ as s', Transition.run free s as = some s' →
    k ≤ as.countP (·.2.thread = .cpu c) → (s'.cpu c).loc = .detached

/-- A CPU about to run has a process, and done is set once the loader is past it. -/
structure Phases (s : Os cfg) : Prop where
  running : ∀ c, (s.cpu c).loc = .running → (s.cpu c).proc ≠ none
  done : s.done = true → s.ld.loc = .leaving ∨ s.ld.loc = .detached

theorem Phases.init : Phases (init cfg) where
  running _ h := nomatch h
  done h := nomatch h

section Steps
variable {s s' : Os cfg}

theorem Phases.setCpu (ph : Phases s) {c : Fin cfg.numCpus} {u : Cpu}
    (has : u.loc = .running → u.proc ≠ none) : Phases (s.setCpu c u) where
  running d := by
    rw [setCpu_cpu]
    split
    · exact has
    · exact ph.running d
  done := ph.done

theorem Phases.frame (ph : Phases s) (cpu : s'.cpu = s.cpu) (done : s'.done = s.done)
    (ld : s'.ld = s.ld) : Phases s' where
  running := by
    rw [cpu]
    exact ph.running
  done := by
    rw [done, ld]
    exact ph.done

theorem CpuLoc.after_ne_running {k : TimerCall} {loc loc' : CpuLoc}
    (h : loc.after k = some loc') : loc' ≠ .running := by
  cases k <;> cases loc <;> cases h <;> nofun

theorem Phases.step (ph : Phases s) {now : Nat} {a : OsAction cfg.numCpus}
    (h : s.step now a = some s') : Phases s' := by
  cases step_move h with
  | @cpu c _ move =>
      have kept : Phases { s with sched := (s.sched.getMlqProc cfg.priority).2 } :=
        ph.frame rfl rfl rfl
      have got : ∀ left (loc : Option Nat → CpuLoc), (∀ r, loc r ≠ .running) →
          Phases (s.getProc c left loc) := fun left loc away =>
        kept.setCpu fun h => absurd h (away _)
      cases move with
      | load => exact got _ _ fun r => by cases r <;> nofun
      | report => exact (ph.setCpu (by nofun)).frame rfl rfl rfl
      | expire => exact (ph.setCpu (by nofun)).frame rfl rfl rfl
      | resume => exact ph.setCpu (by nofun)
      | afterFinish => exact got _ _ fun _ => nofun
      | afterPut => exact got _ _ fun _ => nofun
      | stop => exact (ph.setCpu (by nofun)).frame rfl rfl rfl
      | skip => exact ph.setCpu (by nofun)
      | dispatch => exact (ph.setCpu (fun _ => by nofun)).frame rfl rfl rfl
      | proceed => exact ph.setCpu fun _ => by nofun
      | @run p =>
          obtain ⟨_, cpu, ld, done, _⟩ := s.run_frame c p
          exact (ph.frame cpu done ld).setCpu (by nofun)
  | loader move =>
      cases move with
      | early here _ _ =>
          refine ⟨ph.running, ?_⟩
          intro h
          rcases ph.done h with out | out <;> rw [here] at out <;> cases out
      | due here _ _ =>
          refine ⟨ph.running, ?_⟩
          intro h
          rcases ph.done h with out | out <;> rw [here] at out <;> cases out
      | finish here _ => exact ⟨ph.running, fun _ => .inl rfl⟩
      | add here =>
          refine ⟨ph.running, ?_⟩
          intro h
          rcases ph.done h with out | out <;> rw [here] at out <;> cases out
  | cpuTimer after => exact ph.setCpu fun h => absurd h (CpuLoc.after_ne_running after)
  | @ldTimer k loc after =>
      refine ⟨ph.running, ?_⟩
      intro h
      rcases ph.done h with out | out <;> rw [out] at after <;> cases k <;> cases after
      exact .inr rfl

/-- What an idle CPU asks of the state around it, kept by every step. -/
structure Idle (s : Os cfg) : Prop where
  ended : s.Over
  phases : s.Phases
  tracked : ∃ st, Tracks st s

theorem Idle.held (idle : s.Idle) (c : Fin cfg.numCpus) : (s.cpu c).held = none := by
  obtain ⟨st, t⟩ := idle.tracked
  cases holds : (s.cpu c).held with
  | none => rfl
  | some p =>
      have place := (t.held c p).mp holds
      have added : p < s.ld.i := by
        by_contra late
        rw [(t.unborn p).mpr (not_lt.mp late)] at place
        cases place
      rw [(t.finished p).mp (idle.ended.finished p added)] at place
      cases place

theorem Idle.no_proc (idle : s.Idle) {c : Fin cfg.numCpus}
    (here : (s.cpu c).loc ≠ .afterFinish) (here' : (s.cpu c).loc ≠ .afterPut) :
    (s.cpu c).proc = none :=
  (Cpu.held_eq here here').symm.trans (idle.held c)

theorem Idle.getProc (idle : s.Idle) (c : Fin cfg.numCpus) (left : Int)
    (loc : Option Nat → CpuLoc) : s.getProc c left loc = s.setCpu c ⟨loc none, none, left⟩ := by
  obtain ⟨st, t⟩ := idle.tracked
  unfold Os.getProc
  rw [Sched.getMlqProc_none cfg.priority t.static idle.ended.empty]

theorem Idle.cpuMove (idle : s.Idle) {c : Fin cfg.numCpus} (move : CpuMove s c s') :
    s'.Over ∧ ∀ d, (s'.cpu d).loc =
      if c = d then (s.cpu d).loc.idleNext else (s.cpu d).loc := by
  have moved : ∀ u : Cpu, u.loc = (s.cpu c).loc.idleNext → ∀ d, ((s.setCpu c u).cpu d).loc =
      if c = d then (s.cpu d).loc.idleNext else (s.cpu d).loc := by
    intro u eq d
    rw [setCpu_cpu]
    by_cases same : c = d
    · subst same
      simp [eq]
    · simp [same, Ne.symm same]
  have none_here : (s.cpu c).loc ≠ .afterFinish → (s.cpu c).loc ≠ .afterPut → ∀ {p},
      (s.cpu c).proc ≠ some p := fun here here' p eq =>
    nomatch (idle.no_proc here here').symm.trans eq
  cases move with
  | load here _ =>
      rw [idle.getProc]
      exact ⟨⟨idle.ended.done, idle.ended.finished, idle.ended.empty⟩, moved _ (by rw [here]; rfl)⟩
  | report here proc => exact absurd proc (none_here (by rw [here]; nofun) (by rw [here]; nofun))
  | expire here proc => exact absurd proc (none_here (by rw [here]; nofun) (by rw [here]; nofun))
  | resume here proc => exact absurd proc (none_here (by rw [here]; nofun) (by rw [here]; nofun))
  | afterFinish here =>
      rw [idle.getProc]
      exact ⟨⟨idle.ended.done, idle.ended.finished, idle.ended.empty⟩, moved _ (by rw [here]; rfl)⟩
  | afterPut here =>
      rw [idle.getProc]
      exact ⟨⟨idle.ended.done, idle.ended.finished, idle.ended.empty⟩, moved _ (by rw [here]; rfl)⟩
  | stop here =>
      refine ⟨⟨idle.ended.done, ?_, idle.ended.empty⟩, moved _ (by rw [here]; rfl)⟩
      intro p added
      exact (finished_note _ _ p).mpr (.inl (idle.ended.finished p added))
  | skip here _ going => exact absurd (idle.ended.done.symm.trans going) nofun
  | dispatch here proc => exact absurd proc (none_here (by rw [here]; nofun) (by rw [here]; nofun))
  | proceed here proc => exact absurd proc (none_here (by rw [here]; nofun) (by rw [here]; nofun))
  | run here proc => exact absurd proc (none_here (by rw [here]; nofun) (by rw [here]; nofun))

/-- The step lemma: once the work is over it stays over, and a CPU moves by its own steps
only, always to the same next place. -/
theorem Idle.step (idle : s.Idle) {now : Nat} {a : OsAction cfg.numCpus}
    (h : s.step now a = some s') : s'.Idle ∧ ∀ c, (s'.cpu c).loc =
      if a.thread = .cpu c then (s.cpu c).loc.idleNext else (s.cpu c).loc := by
  obtain ⟨st, t⟩ := idle.tracked
  obtain ⟨st', t', _⟩ := t.step h
  have kept : s'.Over → s'.Idle := fun ended => ⟨ended, idle.phases.step h, _, t'⟩
  cases step_move h with
  | @cpu c _ move =>
      obtain ⟨ended, moved⟩ := idle.cpuMove move
      exact ⟨kept ended, by simpa [OsAction.thread] using moved⟩
  | loader move =>
      have past : s.ld.loc = .leaving ∨ s.ld.loc = .detached := idle.phases.done idle.ended.done
      cases move with
      | early here | due here | finish here | add here =>
          rcases past with out | out <;> rw [here] at out <;> cases out
  | @cpuTimer k loc c after =>
      refine ⟨kept ⟨idle.ended.done, idle.ended.finished, idle.ended.empty⟩, ?_⟩
      intro d
      rw [setCpu_cpu]
      by_cases same : c = d
      · subst same
        cases k <;> cases eq : (s.cpu c).loc <;> rw [eq] at after <;> cases after <;>
          simp [OsAction.thread, CpuLoc.idleNext]
      · simp [OsAction.thread, same, Ne.symm same]
  | ldTimer after =>
      exact ⟨kept ⟨idle.ended.done, idle.ended.finished, idle.ended.empty⟩,
        fun d => by simp [OsAction.thread]⟩

/-- The run lemma: a CPU's place is where its own steps have brought it. -/
theorem Idle.run (idle : s.Idle) (c : Fin cfg.numCpus) {as : List (Nat × OsAction cfg.numCpus)}
    (h : Transition.run free s as = some s') : s'.Idle ∧ (s'.cpu c).loc =
      CpuLoc.idleNext^[as.countP (·.2.thread = .cpu c)] (s.cpu c).loc :=
  run_iterate (fun a => a.2.thread = .cpu c) (f := fun s : Os cfg => (s.cpu c).loc)
    (fun _ _ _ idle h => (idle.step h).imp_right fun moved => moved c) h idle

theorem Idle.work (idle : s.Idle) {c : Fin cfg.numCpus} (now : Nat)
    (here : (s.cpu c).loc = .top ∨ (s.cpu c).loc.BeforeTest) :
    (s.step now (.work (.cpu c))).isSome := by
  rcases here with here | here | here | here
  · have := idle.no_proc (c := c) (by simp [here]) (by simp [here])
    simp [Os.step, cpuWork, here, this]
  · simp [Os.step, cpuWork, here]
  · simp [Os.step, cpuWork, here]
  · have := idle.no_proc (c := c) (by simp [here]) (by simp [here])
    simp [Os.step, cpuWork, here, this, idle.ended.done]

end Steps

theorem Over.idle {s : Os cfg} (ended : s.Over) (reach : Reach free (Os.init cfg) s) : s.Idle :=
  ⟨ended, reach.invariant (P := Phases) (fun _ _ _ ph h => ph.step h) .init, reach_tracks reach⟩

theorem Idle.leavesLoop {s : Os cfg} (idle : s.Idle) {c : Fin cfg.numCpus}
    (before : (s.cpu c).loc.BeforeTest) : s.LeavesLoop c where
  never_round s' reach now s'' h := by
    obtain ⟨as, reached⟩ := reach
    obtain ⟨idle', place⟩ := idle.run c reached
    have moved := (idle'.step h).2 c
    rw [if_pos (by rfl), place, ← Function.iterate_succ_apply' CpuLoc.idleNext] at moved
    intro round
    rcases before.iterate (as.countP (·.2.thread = .cpu c) + 1) with on_the_way | out
    · rw [← moved, round] at on_the_way
      simp [CpuLoc.BeforeTest] at on_the_way
    · rw [← moved, round] at out
      exact out ⟨nofun, nofun⟩
  never_stuck s' reach attached := by
    obtain ⟨as, reached⟩ := reach
    obtain ⟨idle', place⟩ := idle.run c reached
    rcases before.iterate (as.countP (·.2.thread = .cpu c)) with on_the_way | out
    · exact ⟨0, .work (.cpu c), rfl, idle'.work 0 (.inr (place ▸ on_the_way))⟩
    · have leaving : (s'.cpu c).loc = .leaving := by
        by_contra other
        exact out (place ▸ ⟨other, attached⟩)
      exact ⟨0, .timer .detach (.cpu c), rfl, by simp [Os.step, leaving, CpuLoc.after]⟩
  soon := ⟨3, fun as s' h enough => (idle.run c h).2.trans (before.out enough)⟩

/-- A CPU caught at the top of its loop, or in next_slot, goes round for ever. -/
theorem Idle.around {s : Os cfg} (idle : s.Idle) {c : Fin cfg.numCpus}
    (around : (s.cpu c).loc.Around) {s' : Os cfg} (reach : Reach free s s') :
    (s'.cpu c).loc.Around := by
  obtain ⟨as, reached⟩ := reach
  exact (idle.run c reached).2 ▸ around.iterate _

theorem Idle.advance {s : Os cfg} (idle : s.Idle) {c : Fin cfg.numCpus}
    {a : OsAction cfg.numCpus} (own : a.thread = .cpu c) (enabled : (s.step 0 a).isSome) :
    ∃ s', s.step 0 a = some s' ∧ s'.Idle ∧ (s'.cpu c).loc = (s.cpu c).loc.idleNext := by
  obtain ⟨s', h⟩ := Option.isSome_iff_exists.mp enabled
  obtain ⟨idle', moved⟩ := idle.step h
  exact ⟨s', h, idle', (moved c).trans (if_pos own)⟩

theorem Idle.ret {s : Os cfg} (idle : s.Idle) {c : Fin cfg.numCpus}
    (here : (s.cpu c).loc = .inSlot) :
    ∃ s', Reach free s s' ∧ s'.Idle ∧ (s'.cpu c).loc = .top := by
  obtain ⟨s', h, idle', moved⟩ := idle.advance (c := c) (a := .timer .ret (.cpu c)) rfl
    (by simp [Os.step, here, CpuLoc.after])
  exact ⟨s', (Reach.refl s).tail (a := (0, _)) h, idle', by rw [moved, here]; rfl⟩

theorem Idle.reach_top {s : Os cfg} (idle : s.Idle) {c : Fin cfg.numCpus}
    (around : (s.cpu c).loc.Around) :
    ∃ s', Reach free s s' ∧ s'.Idle ∧ (s'.cpu c).loc = .top := by
  rcases around with here | here | here
  · exact ⟨s, .refl s, idle, here⟩
  · obtain ⟨s', h, idle', moved⟩ := idle.advance (c := c) (a := .timer .call (.cpu c)) rfl
      (by simp [Os.step, here, CpuLoc.after])
    obtain ⟨s'', reach, idle'', top⟩ := idle'.ret (moved.trans (by rw [here]; rfl))
    exact ⟨s'', ((Reach.refl s).tail (a := (0, _)) h).trans reach, idle'', top⟩
  · exact idle.ret here

theorem Idle.goes_round {s : Os cfg} (idle : s.Idle) {c : Fin cfg.numCpus}
    (around : (s.cpu c).loc.Around) : ¬ s.LeavesLoop c := by
  intro leaves
  obtain ⟨s', reach, idle', top⟩ := idle.reach_top around
  obtain ⟨s'', h, _, moved⟩ := idle'.advance (a := .work (.cpu c)) rfl (idle'.work 0 (.inl top))
  exact leaves.never_round s' reach 0 s'' h (moved.trans (by rw [top]; rfl))

/-- Every place of an idle CPU: on its way out, going round, or out. -/
theorem Idle.place {s : Os cfg} (idle : s.Idle) {c : Fin cfg.numCpus}
    (inside : (s.cpu c).loc.InLoop) : (s.cpu c).loc.BeforeTest ∨ (s.cpu c).loc.Around := by
  cases here : (s.cpu c).loc with
  | running =>
      exact absurd (idle.no_proc (by rw [here]; nofun) (by rw [here]; nofun))
        (idle.phases.running c here)
  | leaving => exact absurd here inside.1
  | detached => exact absurd here inside.2
  | _ => simp [CpuLoc.BeforeTest, CpuLoc.Around]

/-- Once the work is over, the CPUs that leave their loop are exactly those that have just
given up a process and not yet tested done. -/
theorem leaves_loop_iff {s : Os cfg} (reach : Reach free (Os.init cfg) s) (ended : s.Over)
    {c : Fin cfg.numCpus} (inside : (s.cpu c).loc.InLoop) :
    s.LeavesLoop c ↔ (s.cpu c).loc.BeforeTest := by
  have idle := ended.idle reach
  constructor
  · intro leaves
    rcases idle.place inside with before | around
    · exact before
    · exact absurd leaves (idle.goes_round around)
  · exact idle.leavesLoop

def lone : Config where
  timeSlot := 1
  numCpus := 2
  numProcesses := 1
  ldProcesses := fun _ => ⟨0, 0, 0, [⟨.calc, 0, 0, 0⟩]⟩

instance : NeZero lone.numCpus := ⟨Nat.succ_ne_zero _⟩

/-- One slot, in which the first CPU runs the process and the second finds none; then the
loader sets done and the first CPU reports the process. -/
def loneRun : List (Nat × OsAction lone.numCpus) :=
  let threads : List (Thread lone.numCpus) := [.loader, .cpu 0, .cpu 1]
  let works : List (OsAction lone.numCpus) := [.work .loader, .work .loader, .work (.cpu 0),
    .work (.cpu 0), .work (.cpu 0), .work (.cpu 1)]
  let slot := works ++ threads.map (OsAction.timer .call) ++ threads.map (OsAction.timer .ret)
  slot.map (0, ·) ++ [(1, .work .loader), (1, .work (.cpu 0))]

theorem lone_over : ∃ s : Os lone, Reach free (Os.init lone) s ∧ s.Over ∧
    (s.cpu 0).loc = .afterFinish ∧ (s.cpu 1).loc = .top := by
  obtain ⟨s, reached, done, finished, empty, first, second⟩ :
      ∃ s ∈ Transition.run free (Os.init lone) loneRun, s.done = true ∧
        (∀ p < s.ld.i, s.Finished p) ∧ (∀ l < maxPrio, s.sched.level l = []) ∧
        (s.cpu 0).loc = .afterFinish ∧ (s.cpu 1).loc = .top := by
    decide +kernel
  exact ⟨s, ⟨_, reached⟩, ⟨done, finished, empty⟩, first, second⟩

theorem leaves_loop_iff_lone : ∃ s : Os lone, Reach free (Os.init lone) s ∧ s.Over ∧
    s.LeavesLoop 0 ∧ ¬ s.LeavesLoop 1 := by
  obtain ⟨s, reach, ended, first, second⟩ := lone_over
  refine ⟨s, reach, ended, ?_, ?_⟩
  · exact (leaves_loop_iff reach ended (by rw [first]; exact ⟨nofun, nofun⟩)).mpr (.inl first)
  · intro leaves
    have := (leaves_loop_iff reach ended (by rw [second]; exact ⟨nofun, nofun⟩)).mp leaves
    simp [second, CpuLoc.BeforeTest] at this

/-- A CPU that was never given a process goes on asking for one. -/
theorem idle_cpu_stays : ¬ ∀ (cfg : Config) (s : Os cfg), Reach free (Os.init cfg) s → s.Over →
    ∀ c, (s.cpu c).loc.InLoop → s.LeavesLoop c := by
  intro claim
  obtain ⟨s, reach, ended, _, second⟩ := lone_over
  exact (ended.idle reach).goes_round (.inl second)
    (claim lone s reach ended 1 (by rw [second]; exact ⟨nofun, nofun⟩))

/-- The others stay in it for ever: the first load fails before the test of done. -/
theorem never_stops {s : Os cfg} (reach : Reach free (Os.init cfg) s) (ended : s.Over)
    {c : Fin cfg.numCpus} (inside : (s.cpu c).loc.InLoop)
    (missed : ¬ (s.cpu c).loc.BeforeTest) {s' : Os cfg} (later : Reach free s s') :
    (s'.cpu c).loc.InLoop := by
  have idle := ended.idle reach
  have around := idle.around ((idle.place inside).resolve_left missed) later
  rcases around with eq | eq | eq <;> rw [eq] <;> exact ⟨nofun, nofun⟩

end Os
end OsSim
