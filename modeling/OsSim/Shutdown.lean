import OsSim.Machine
import OsSim.NoneLost
import OsSim.WindDown

/-! Safe shutdown. A CPU that has found no process and is about to test done keeps the
clock still, so the loader cannot come back from its next_slot in between. -/
namespace OsSim
open Transition

def CpuLoc.InTimer (loc : CpuLoc) : Prop := loc = .inSlot ∨ loc = .detached

def LdLoc.InTimer (loc : LdLoc) : Prop := loc = .earlySlot ∨ loc = .addedSlot ∨ loc = .detached

namespace Os
variable {cfg : Config} {s s' : Os cfg}

def InTimer (s : Os cfg) : Thread cfg.numCpus → Prop
  | .cpu c => (s.cpu c).loc.InTimer
  | .loader => s.ld.loc.InTimer

/-- get_proc has returned NULL to the CPU, which is about to test done. -/
def FoundNone (s : Os cfg) (c : Fin cfg.numCpus) : Prop :=
  (s.cpu c).loc = .recheck ∧ (s.cpu c).proc = none

theorem FoundNone.outside {c : Fin cfg.numCpus} (found : s.FoundNone c) :
    ¬ s.InTimer (.cpu c) := by
  rintro (eq | eq) <;> rw [found.1] at eq <;> cases eq

theorem FoundNone.inLoop {c : Fin cfg.numCpus} (found : s.FoundNone c) :
    (s.cpu c).loc.InLoop := by
  rw [found.1]
  exact ⟨nofun, nofun⟩

theorem FoundNone.kept {c : Fin cfg.numCpus} (found : s.FoundNone c) {now : Nat}
    {b : OsAction cfg.numCpus} (h : s.step now b = some s') (other : b ≠ .work (.cpu c)) :
    s'.FoundNone c := by
  cases step_move h with
  | @cpu d _ move =>
      have : c ≠ d := fun eq => other (by rw [eq])
      simpa only [FoundNone, move.frame.2.2 c this] using found
  | loader move => cases move <;> exact found
  | @cpuTimer k loc d after =>
      have : c ≠ d := by
        rintro rfl
        rw [found.1] at after
        cases k <;> cases after
      simpa only [FoundNone, setCpu_cpu, if_neg this] using found
  | ldTimer => exact found

theorem work_inTimer {now : Nat} {t : Thread cfg.numCpus}
    (h : s.step now (.work t) = some s') {u : Thread cfg.numCpus} (inside : s.InTimer u) :
    s'.InTimer u := by
  cases step_move h with
  | @cpu c _ move =>
      obtain ⟨ld, _, others⟩ := move.frame
      cases u with
      | loader => simpa only [InTimer, ld] using inside
      | cpu d =>
          have other : d ≠ c := by
            rintro rfl
            exact inside.elim move.loc.1 move.loc.2
          simpa only [InTimer, others d other] using inside
  | loader move =>
      cases u with
      | cpu d => cases move <;> exact inside
      | loader =>
          cases move with
          | early here | due here | finish here | add here =>
              rcases inside with eq | eq | eq <;> rw [here] at eq <;> cases eq

theorem timer_inTimer {now : Nat} {k : TimerCall} {t : Thread cfg.numCpus}
    (h : s.step now (.timer k t) = some s') :
    (∀ u ≠ t, s.InTimer u → s'.InTimer u) ∧ (k ≠ .ret → s'.InTimer t) := by
  cases step_move h with
  | @cpuTimer _ loc c after =>
      constructor
      · intro u other inside
        cases u with
        | loader => exact inside
        | cpu d =>
            have : d ≠ c := fun eq => other (by rw [eq])
            simpa only [InTimer, setCpu_cpu, if_neg this] using inside
      · intro stays
        simp only [InTimer, setCpu_same]
        cases k <;> cases eq : (s.cpu c).loc <;> rw [eq] at after <;> cases after
        · exact .inl rfl
        · exact absurd rfl stays
        · exact .inr rfl
  | @ldTimer _ loc after =>
      constructor
      · intro u other inside
        cases u with
        | loader => exact absurd rfl other
        | cpu d => exact inside
      · intro stays
        simp only [InTimer]
        cases k <;> cases eq : s.ld.loc <;> rw [eq] at after <;> cases after
        · exact .inl rfl
        · exact .inr (.inl rfl)
        · exact absurd rfl stays
        · exact absurd rfl stays
        · exact .inr (.inr rfl)

end Os

namespace Machine
variable {cfg : Config} {m m' : Machine cfg}

/-- A thread that is not inside next_slot and has not detached is a device at work. -/
def AtWork (m : Machine cfg) : Prop := ∀ t, ¬ m.os.InTimer t → (m.timer.dev t).loc = .working

theorem AtWork.other (w : m.AtWork) {timer : Timer (Thread cfg.numCpus)} {os : Os cfg}
    {a : TimerAction (Thread cfg.numCpus)} (ticked : m.timer.step (devList _) a = some timer)
    {now k} {t u : Thread cfg.numCpus} (moved : m.os.step now (.timer k t) = some os)
    (named : a = .nextSlot t ∨ a = .test t ∨ a = .detach t) (other : u ≠ t)
    (outside : ¬ os.InTimer u) : (timer.dev u).loc = .working := by
  have before := w u fun inside => outside ((Os.timer_inTimer moved).1 u other inside)
  rcases (Timer.step_devMove ticked u).working before with here | eq | eq
  · exact here
  all_goals
    subst eq
    rcases named with eq | eq | eq <;> cases eq
    exact absurd rfl other

theorem AtWork.step (w : m.AtWork) {a : MachineAction cfg.numCpus} (h : m.step a = some m') :
    m'.AtWork := by
  intro u outside
  cases step_move h with
  | work moved => exact w u fun inside => outside (Os.work_inTimer moved inside)
  | alone ticked no_call no_detach =>
      rcases (Timer.step_devMove ticked u).working (w u outside) with here | eq | eq
      · exact here
      · exact absurd eq (no_call u)
      · exact absurd eq (no_detach u)
  | @call t timer os ticked moved =>
      have other : u ≠ t := fun eq => outside (eq ▸ (Os.timer_inTimer moved).2 nofun)
      exact w.other ticked moved (.inl rfl) other outside
  | @ret t timer os ticked back moved =>
      by_cases same : u = t
      · exact same ▸ back
      · exact w.other ticked moved (.inr (.inl rfl)) same outside
  | @detach t timer os ticked moved =>
      have other : u ≠ t := fun eq => outside (eq ▸ (Os.timer_inTimer moved).2 nofun)
      exact w.other ticked moved (.inr (.inr rfl)) other outside

/-- What the parts and their coupling guarantee in every reachable state. -/
structure Coupled (m : Machine cfg) : Prop where
  sync : Timer.Sync (devList _) m.timer
  atWork : m.AtWork
  phases : m.os.Phases
  tracked : ∃ st, Os.Tracks st m.os

theorem reach_coupled (reach : Reach step (init cfg) m) : m.Coupled where
  sync := Timer.reach_sync (reach_timer reach)
  atWork := reach.invariant (fun _ _ _ w h => AtWork.step w h) fun _ _ => rfl
  phases := (reach_os reach).invariant (P := Os.Phases) (fun _ _ _ ph h => ph.step h) .init
  tracked := Os.reach_tracks (reach_os reach)

/-- The loader's part of the timer and the clock stand still. -/
def Still (t t' : Timer (Thread cfg.numCpus)) : Prop :=
  t'.time = t.time ∧ (t'.dev .loader).calls = (t.dev .loader).calls

theorem Coupled.still (co : m.Coupled) {c : Fin cfg.numCpus} (found : m.os.FoundNone c)
    {a : TimerAction (Thread cfg.numCpus)} {timer : Timer (Thread cfg.numCpus)}
    (ticked : m.timer.step (devList _) a = some timer) (other : a ≠ .nextSlot .loader) :
    Still m.timer timer :=
  ⟨co.sync.clock_still (co.atWork _ found.outside) ticked,
    (Timer.step_devMove ticked _).calls other⟩

/-- The loader has added a process and is not back from the next_slot after it, which it
has called, if at all, in the slot that still goes on. -/
def JustAdded (m : Machine cfg) : Prop :=
  m.os.ld.loc = .added ∨
    m.os.ld.loc = .addedSlot ∧ (m.timer.dev .loader).calls = m.timer.time + 1

theorem JustAdded.still (added : m.JustAdded) {os : Os cfg}
    {timer : Timer (Thread cfg.numCpus)} (ld : os.ld = m.os.ld) (still : Still m.timer timer) :
    JustAdded ⟨os, timer⟩ := by
  simpa only [JustAdded, ld, still.1, still.2] using added

/-- The CPU has stopped, or is about to test done after a get_proc made when all the
processes had been added. -/
def Settled (seen : Fin cfg.numCpus → Nat) (s : Os cfg) (c : Fin cfg.numCpus) : Prop :=
  ¬ (s.cpu c).loc.InLoop ∨ s.FoundNone c ∧ seen c = cfg.numProcesses

/-- `seen c` is the number of processes added when get_proc last found none for the CPU. -/
structure Watch (seen : Fin cfg.numCpus → Nat) (m : Machine cfg) : Prop where
  seen_le : ∀ c, seen c ≤ m.os.ld.i
  fresh : ∀ c, m.os.FoundNone c → seen c = m.os.ld.i ∨ m.JustAdded
  stopped : ∀ c, ¬ (m.os.cpu c).loc.InLoop →
    seen c = cfg.numProcesses ∧ (m.os.cpu c).proc = none
  done : m.os.done = true → m.os.ld.i = cfg.numProcesses
  settled : m.os.ld.i = cfg.numProcesses → (∀ c, Settled seen m.os c) →
    ∀ l < maxPrio, m.os.sched.level l = []

theorem Watch.init (cfg : Config) : Watch (fun _ => 0) (init cfg) where
  seen_le _ := le_rfl
  fresh _ found := nomatch found.1
  stopped _ out := absurd ⟨nofun, nofun⟩ out
  done h := nomatch h
  settled _ _ _ inside := Sched.initScheduler_level _ inside

section Steps
variable {seen : Fin cfg.numCpus → Nat} {os : Os cfg} {timer : Timer (Thread cfg.numCpus)}
  {c : Fin cfg.numCpus}

theorem Watch.busy (w : Watch seen m) (ld : os.ld = m.os.ld) (done : os.done = m.os.done)
    (others : ∀ d ≠ c, os.cpu d = m.os.cpu d) (inLoop : (os.cpu c).loc.InLoop)
    (busy : ¬ os.FoundNone c) (still : ∀ d, m.os.FoundNone d → Still m.timer timer) :
    Watch seen ⟨os, timer⟩ where
  seen_le d := ld ▸ w.seen_le d
  fresh d found := by
    by_cases same : d = c
    · exact absurd (same ▸ found) busy
    · have before : m.os.FoundNone d := by simpa only [Os.FoundNone, others d same] using found
      exact (w.fresh d before).imp (fun eq => ld ▸ eq) fun added => added.still ld (still d before)
  stopped d out := by
    by_cases same : d = c
    · exact absurd inLoop (same ▸ out)
    · rw [others d same] at out ⊢
      exact w.stopped d out
  done := by
    rw [done, ld]
    exact w.done
  settled _ all := by
    rcases all c with out | ⟨found, _⟩
    · exact absurd inLoop out
    · exact absurd found busy

theorem Watch.leave (w : Watch seen m) (ld : os.ld = m.os.ld) (done : os.done = m.os.done)
    (others : ∀ d ≠ c, os.cpu d = m.os.cpu d) (level : os.sched = m.os.sched)
    (before : Settled seen m.os c) (all_seen : seen c = cfg.numProcesses)
    (out : ¬ (os.cpu c).loc.InLoop) (none : (os.cpu c).proc = none)
    (still : ∀ d, m.os.FoundNone d → Still m.timer timer) : Watch seen ⟨os, timer⟩ where
  seen_le d := ld ▸ w.seen_le d
  fresh d found := by
    have other : d ≠ c := by
      rintro rfl
      exact out found.inLoop
    have before : m.os.FoundNone d := by simpa only [Os.FoundNone, others d other] using found
    exact (w.fresh d before).imp (fun eq => ld ▸ eq) fun added => added.still ld (still d before)
  stopped d out := by
    by_cases same : d = c
    · exact same ▸ ⟨all_seen, none⟩
    · rw [others d same] at out ⊢
      exact w.stopped d out
  done := by
    rw [done, ld]
    exact w.done
  settled all_added all := by
    rw [level]
    apply w.settled (ld ▸ all_added)
    intro d
    by_cases same : d = c
    · exact same ▸ before
    · simpa only [Settled, Os.FoundNone, others d same] using all d

theorem Watch.loader (w : Watch seen m) (cpu : os.cpu = m.os.cpu) (level : os.sched = m.os.sched)
    (i : os.ld.i = m.os.ld.i) (done : os.done = true → m.os.ld.i = cfg.numProcesses)
    (added : ∀ d, m.os.FoundNone d → m.JustAdded → JustAdded ⟨os, timer⟩) :
    Watch seen ⟨os, timer⟩ where
  seen_le d := i ▸ w.seen_le d
  fresh d found := by
    have before : m.os.FoundNone d := by simpa only [Os.FoundNone, cpu] using found
    exact (w.fresh d before).imp (fun eq => i ▸ eq) (added d before)
  stopped d := by
    rw [cpu]
    exact w.stopped d
  done ended := i ▸ done ended
  settled all_added all := by
    rw [level]
    apply w.settled (i ▸ all_added)
    intro d
    simpa only [Settled, Os.FoundNone, cpu] using all d

/-- get_proc: where it finds none, no process waits and all that were added are seen. -/
theorem Watch.getProc (co : m.Coupled) (w : Watch seen m) (c : Fin cfg.numCpus) (left : Int)
    (loc : Option Nat → CpuLoc) (inLoop : ∀ r, (loc r).InLoop) :
    ∃ seen', Watch seen' ⟨m.os.getProc c left loc, m.timer⟩ ∧ (∀ d ≠ c, seen' d = seen d) ∧
      ((m.os.getProc c left loc).FoundNone c → seen' c = m.os.ld.i ∧
        ∀ l < maxPrio, (m.os.getProc c left loc).sched.level l = []) := by
  obtain ⟨st, t⟩ := co.tracked
  have others : ∀ u, ∀ d ≠ c, (m.os.setCpu c u).cpu d = m.os.cpu d := fun u d other => by
    rw [Os.setCpu_cpu, if_neg other]
  unfold Os.getProc
  rcases Sched.getMlqProc_cases cfg.priority t.static with
    ⟨empty, eq⟩ | ⟨_, _, x, _, sched, _, eq, _⟩
  · rw [eq]
    refine ⟨Function.update seen c m.os.ld.i, ⟨fun d => ?_, fun d found => ?_, fun d out => ?_,
      w.done, fun _ _ => empty⟩, fun d other => Function.update_of_ne other _ _, fun _ => ?_⟩
    · by_cases same : d = c
      · subst same
        exact (Function.update_self d _ seen).le
      · rw [Function.update_of_ne same]
        exact w.seen_le d
    · by_cases same : d = c
      · subst same
        exact .inl (Function.update_self d _ seen)
      · rw [Function.update_of_ne same]
        apply w.fresh d
        simpa only [Os.FoundNone, others _ d same] using found
    · have other : d ≠ c := by
        rintro rfl
        rw [Os.setCpu_same] at out
        exact out (inLoop _)
      rw [Function.update_of_ne other]
      rw [others _ d other] at out ⊢
      exact w.stopped d out
    · exact ⟨Function.update_self c _ seen, empty⟩
  · rw [eq]
    have busy : ¬ (Os.setCpu { m.os with sched } c ⟨loc (some x), some x, left⟩).FoundNone c := by
      rintro ⟨_, none⟩
      rw [Os.setCpu_same] at none
      cases none
    refine ⟨seen, w.busy (c := c) rfl rfl (others _) ?_ busy fun _ _ => ⟨rfl, rfl⟩,
      fun _ _ => rfl, fun found => absurd found busy⟩
    rw [Os.setCpu_same]
    exact inLoop _

/-- A CPU that reads done while it has no process has seen all processes. -/
theorem Watch.test_done (co : m.Coupled) (w : Watch seen m) (found : m.os.FoundNone c)
    (ended : m.os.done = true) : seen c = m.os.ld.i := by
  rcases w.fresh c found with eq | added
  · exact eq
  · rcases co.phases.done ended with past | past <;> rcases added with eq | ⟨eq, _⟩ <;>
      rw [past] at eq <;> cases eq

theorem Watch.cpuMove (co : m.Coupled) (w : Watch seen m) (move : Os.CpuMove m.os c os) :
    ∃ seen', Watch seen' ⟨os, m.timer⟩ ∧ (∀ d ≠ c, seen' d = seen d) ∧
      (os.FoundNone c → seen' c = os.ld.i ∧ ∀ l < maxPrio, os.sched.level l = []) := by
  obtain ⟨ld, done, others⟩ := move.frame
  have busy : (os.cpu c).loc.InLoop → ¬ os.FoundNone c →
      ∃ seen', Watch seen' ⟨os, m.timer⟩ ∧ (∀ d ≠ c, seen' d = seen d) ∧
        (os.FoundNone c → seen' c = os.ld.i ∧ ∀ l < maxPrio, os.sched.level l = []) :=
    fun inLoop busy => ⟨seen, w.busy ld done others inLoop busy fun _ _ => ⟨rfl, rfl⟩,
      fun _ _ => rfl, fun found => absurd found busy⟩
  cases move with
  | load => exact w.getProc co c _ _ fun r => by cases r <;> exact ⟨nofun, nofun⟩
  | afterFinish => exact w.getProc co c _ _ fun _ => ⟨nofun, nofun⟩
  | afterPut => exact w.getProc co c _ _ fun _ => ⟨nofun, nofun⟩
  | stop here none ended =>
      have all_seen : seen c = cfg.numProcesses :=
        (w.test_done co ⟨here, none⟩ ended).trans (w.done ended)
      have out : ¬ (CpuLoc.leaving).InLoop := fun inLoop => inLoop.1 rfl
      refine ⟨seen, w.leave ld done others rfl (.inr ⟨⟨here, none⟩, all_seen⟩) all_seen ?_ ?_
        fun _ _ => ⟨rfl, rfl⟩, fun _ _ => rfl, fun found => ?_⟩
      · simpa using out
      · simp
      · exact absurd found.inLoop (by simpa using out)
  | report | expire | resume | skip | dispatch | proceed | run =>
      refine busy ?_ ?_
      · simp [CpuLoc.InLoop]
      · simp [Os.FoundNone]

theorem Watch.ldMove (cpus : 0 < cfg.numCpus) (co : m.Coupled) (w : Watch seen m) {now : Nat}
    (move : Os.LdMove now m.os os) : Watch seen ⟨os, m.timer⟩ := by
  obtain ⟨st, t⟩ := co.tracked
  have not_added : m.os.ld.loc = .test → ¬ m.JustAdded := by
    rintro here (eq | ⟨eq, _⟩) <;> rw [here] at eq <;> cases eq
  cases move with
  | early here => exact w.loader rfl rfl rfl w.done fun _ _ added => absurd added (not_added here)
  | due here => exact w.loader rfl rfl rfl w.done fun _ _ added => absurd added (not_added here)
  | finish here past =>
      exact w.loader rfl rfl rfl (fun _ => le_antisymm t.added (not_lt.mp past))
        fun _ _ added => absurd added (not_added here)
  | add here =>
      -- no CPU has settled: that would be one that has seen the process added just now
      have unseen : ∀ d, seen d ≠ cfg.numProcesses := fun d all_seen =>
        absurd (all_seen ▸ w.seen_le d) (not_le.mpr (t.ready here))
      refine ⟨fun d => (w.seen_le d).trans (Nat.le_succ _), fun _ _ => .inr (.inl rfl),
        fun d out => absurd (w.stopped d out).1 (unseen d), fun ended => ?_, fun _ all => ?_⟩
      · rcases co.phases.done ended with past | past <;> rw [here] at past <;> cases past
      · rcases all ⟨0, cpus⟩ with out | ⟨_, all_seen⟩
        · exact absurd (w.stopped _ out).1 (unseen _)
        · exact absurd all_seen (unseen _)

theorem Watch.cpuTimer (w : Watch seen m) {k : TimerCall} {loc : CpuLoc}
    (after : (m.os.cpu c).loc.after k = some loc)
    (still : ∀ d, m.os.FoundNone d → Still m.timer timer) :
    Watch seen ⟨m.os.setCpu c ⟨loc, (m.os.cpu c).proc, (m.os.cpu c).timeLeft⟩, timer⟩ := by
  have others : ∀ u, ∀ d ≠ c, (m.os.setCpu c u).cpu d = m.os.cpu d := fun u d other => by
    rw [Os.setCpu_cpu, if_neg other]
  have goes_on : loc.InLoop → loc ≠ .recheck →
      Watch seen ⟨m.os.setCpu c ⟨loc, (m.os.cpu c).proc, (m.os.cpu c).timeLeft⟩, timer⟩ := by
    intro inLoop no_test
    refine w.busy (c := c) rfl rfl (others _) ?_ ?_ still
    · simpa using inLoop
    · simpa [Os.FoundNone] using fun eq => absurd eq no_test
  cases k <;> cases here : (m.os.cpu c).loc <;> rw [here] at after <;> cases after
  · exact goes_on ⟨nofun, nofun⟩ nofun
  · exact goes_on ⟨nofun, nofun⟩ nofun
  · have out : ¬ (m.os.cpu c).loc.InLoop := fun inLoop => inLoop.1 here
    obtain ⟨all_seen, none⟩ := w.stopped c out
    refine w.leave (c := c) rfl rfl (others _) rfl (.inl out) all_seen ?_ ?_ still
    · simp [CpuLoc.InLoop]
    · simpa using none

/-- The loader's call of next_slot: after an add it is a call in the slot that goes on. -/
theorem Watch.ldCall (co : m.Coupled) (w : Watch seen m)
    (ticked : m.timer.step (devList _) (.nextSlot .loader) = some timer) {loc : LdLoc}
    (after : m.os.ld.loc.after .call = some loc) :
    Watch seen ⟨{ m.os with ld := ⟨loc, m.os.ld.i⟩ }, timer⟩ := by
  refine w.loader rfl rfl rfl w.done ?_
  intro d _ added
  rcases added with here | ⟨here, _⟩
  · rw [here] at after
    cases after
    cases Timer.step_move ticked with
    | nextSlot working =>
        refine .inr ⟨rfl, ?_⟩
        simp [Device.nextSlot, (co.sync.working working).1]
  · rw [here] at after
    cases after

/-- The loader cannot come back from that call while a CPU is about to test done. -/
theorem Watch.ldRet (co : m.Coupled) (w : Watch seen m)
    (ticked : m.timer.step (devList _) (.test .loader) = some timer)
    (back : (timer.dev .loader).loc = .working) {loc : LdLoc}
    (after : m.os.ld.loc.after .ret = some loc) :
    Watch seen ⟨{ m.os with ld := ⟨loc, m.os.ld.i⟩ }, timer⟩ := by
  refine w.loader rfl rfl rfl w.done ?_
  intro d found added
  rcases added with here | ⟨_, ahead⟩
  · rw [here] at after
    cases after
  · obtain ⟨clock, calls⟩ := co.still found ticked nofun
    have := ((co.sync.step ticked).working back).1
    omega

theorem Watch.ldDetach (w : Watch seen m) {loc : LdLoc}
    (after : m.os.ld.loc.after .detach = some loc) :
    Watch seen ⟨{ m.os with ld := ⟨loc, m.os.ld.i⟩ }, timer⟩ := by
  refine w.loader rfl rfl rfl w.done ?_
  intro d _ added
  rcases added with here | ⟨here, _⟩ <;> rw [here] at after <;> cases after

/-- The step lemma: what has been seen changes with a CPU's get_proc only, which sees all. -/
theorem Watch.step (cpus : 0 < cfg.numCpus) (co : m.Coupled) (w : Watch seen m)
    {a : MachineAction cfg.numCpus} (h : m.step a = some m') :
    ∃ seen', Watch seen' m' ∧ ∀ c, (a ≠ .work (.cpu c) → seen' c = seen c) ∧
      (a = .work (.cpu c) → m'.os.FoundNone c → seen' c = m'.os.ld.i ∧
        ∀ l < maxPrio, m'.os.sched.level l = []) := by
  have same : (∀ c, a ≠ .work (.cpu c)) → Watch seen m' → ∃ seen', Watch seen' m' ∧
      ∀ c, (a ≠ .work (.cpu c) → seen' c = seen c) ∧
        (a = .work (.cpu c) → m'.os.FoundNone c → seen' c = m'.os.ld.i ∧
          ∀ l < maxPrio, m'.os.sched.level l = []) :=
    fun other w' => ⟨seen, w', fun c => ⟨fun _ => rfl, fun eq => absurd eq (other c)⟩⟩
  cases step_move h with
  | work moved =>
      cases Os.step_move moved with
      | @cpu c _ move =>
          obtain ⟨seen', w', others, own⟩ := w.cpuMove co move
          refine ⟨seen', w', fun d => ⟨fun other => others d fun eq => other (by rw [eq]), ?_⟩⟩
          rintro eq
          cases eq
          exact own
      | loader move => exact same nofun (w.ldMove cpus co move)
  | alone ticked no_call _ =>
      exact same nofun (w.loader rfl rfl rfl w.done fun d found added =>
        added.still rfl (co.still found ticked (no_call _)))
  | call ticked moved =>
      cases Os.step_move moved with
      | cpuTimer after =>
          exact same nofun (w.cpuTimer after fun d found => co.still found ticked nofun)
      | ldTimer after => exact same nofun (w.ldCall co ticked after)
  | ret ticked back moved =>
      cases Os.step_move moved with
      | cpuTimer after =>
          exact same nofun (w.cpuTimer after fun d found => co.still found ticked nofun)
      | ldTimer after => exact same nofun (w.ldRet co ticked back after)
  | detach ticked moved =>
      cases Os.step_move moved with
      | cpuTimer after =>
          exact same nofun (w.cpuTimer after fun d found => co.still found ticked nofun)
      | ldTimer after => exact same nofun (w.ldDetach after)

end Steps

theorem reach_watch (cpus : 0 < cfg.numCpus) (reach : Reach step (init cfg) m) :
    ∃ seen, Watch seen m := by
  have both := reach.invariant (P := fun m => Reach step (init cfg) m ∧ ∃ seen, Watch seen m)
    (fun m a m' ⟨reach, seen, w⟩ h =>
      ⟨reach.tail h, (w.step cpus (reach_coupled reach) h).imp fun _ moved => moved.1⟩)
    ⟨.refl _, _, .init cfg⟩
  exact both.2

theorem foundNone_step {c : Fin cfg.numCpus} (found : m.os.FoundNone c)
    {a : MachineAction cfg.numCpus} (h : m.step a = some m') (other : a ≠ .work (.cpu c)) :
    m'.os.FoundNone c := by
  cases step_move h with
  | work moved => exact found.kept moved fun eq => other (by cases eq; rfl)
  | alone => exact found
  | call _ moved | ret _ _ moved | detach _ moved => exact found.kept moved nofun

/-- The run lemma for a CPU about to test done, while the other threads go on. -/
theorem watch_run (cpus : 0 < cfg.numCpus) {seen : Fin cfg.numCpus → Nat} {c : Fin cfg.numCpus}
    {bs : List (MachineAction cfg.numCpus)} (reach : Reach step (init cfg) m) (w : Watch seen m)
    (found : m.os.FoundNone c) (others : ∀ a ∈ bs, a ≠ .work (.cpu c))
    (h : Transition.run step m bs = some m') :
    ∃ seen', Watch seen' m' ∧ seen' c = seen c ∧ m'.os.FoundNone c := by
  induction bs generalizing m seen with
  | nil => exact Option.some.inj h ▸ ⟨seen, w, rfl, found⟩
  | cons a bs ih =>
      obtain ⟨m₁, first, rest⟩ := Option.bind_eq_some_iff.mp h
      have other := others a List.mem_cons_self
      obtain ⟨seen₁, w₁, kept⟩ := w.step cpus (reach_coupled reach) first
      obtain ⟨seen', w', eq, found'⟩ := ih (reach.tail first) w₁ (foundNone_step found first other)
        (fun b member => others b (List.mem_cons_of_mem a member)) rest
      exact ⟨seen', w', eq.trans ((kept c).1 other), found'⟩

/-- An enqueue of the step, if there is one, meets a level with a slot left. -/
def HasRoom (m : Machine cfg) : MachineAction cfg.numCpus → Prop
  | .work t => m.os.HasRoom (.work t)
  | .timer _ => True

instance (m : Machine cfg) : DecidablePred m.HasRoom
  | .work t => inferInstanceAs (Decidable (m.os.HasRoom (.work t)))
  | .timer _ => .isTrue trivial

theorem noneLost_step (prio : ∀ p < cfg.numProcesses, cfg.prio p < maxPrio) (co : m.Coupled)
    (before : m.os.NoneLost) {a : MachineAction cfg.numCpus} (room : m.HasRoom a)
    (h : m.step a = some m') : m'.os.NoneLost := by
  obtain ⟨st, t⟩ := co.tracked
  have timer_room : ∀ k t, m.os.HasRoom (.timer k t) := fun _ _ _ meets => nomatch meets.1
  cases step_move h with
  | work moved => exact (t.noneLost_step prio before moved).mpr room
  | alone => exact before
  | call _ moved | ret _ _ moved | detach _ moved =>
      exact (t.noneLost_step prio before moved).mpr (timer_room _ _)

theorem run_noneLost (prio : ∀ p < cfg.numProcesses, cfg.prio p < maxPrio)
    {as : List (MachineAction cfg.numCpus)} (h : Transition.run step (init cfg) as = some m)
    (room : EachStep step HasRoom (init cfg) as) : m.os.NoneLost := by
  have always := room.always (P := fun m => Reach step (init cfg) m ∧ m.os.NoneLost)
    (fun m a m' ⟨reach, before⟩ room h =>
      ⟨reach.tail h, noneLost_step prio (reach_coupled reach) before room h⟩)
    ⟨.refl _, fun p added => absurd added (Nat.not_lt_zero p)⟩
  exact (always.last h).2

/-- Safe shutdown, in every interleaving the barrier allows that drops no process: when all
CPUs have stopped, every process has been added and reported finished; and whatever the
other threads do between a get_proc that returned NULL, when no process waited, and the
CPU's test of done, where the test succeeds no process has been added in between. -/
theorem safe_shutdown (cpus : 0 < cfg.numCpus)
    (prio : ∀ p < cfg.numProcesses, cfg.prio p < maxPrio) {as : List (MachineAction cfg.numCpus)}
    (h : Transition.run step (init cfg) as = some m)
    (room : EachStep step HasRoom (init cfg) as) :
    ((∀ c, ¬ (m.os.cpu c).loc.InLoop) →
      m.os.ld.i = cfg.numProcesses ∧ ∀ p < cfg.numProcesses, m.os.Finished p) ∧
    ∀ c m₁ bs m₂, m.step (.work (.cpu c)) = some m₁ → m₁.os.FoundNone c →
      Transition.run step m₁ bs = some m₂ → (∀ a ∈ bs, a ≠ .work (.cpu c)) →
      m₂.os.done = true →
      (∀ l < maxPrio, m₁.os.sched.level l = []) ∧ m₂.os.ld.i = m₁.os.ld.i := by
  have reach : Reach step (init cfg) m := ⟨as, h⟩
  have co := reach_coupled reach
  obtain ⟨seen, w⟩ := reach_watch cpus reach
  constructor
  · intro stopped
    have all_added : m.os.ld.i = cfg.numProcesses := by
      have last := w.seen_le ⟨0, cpus⟩
      rw [(w.stopped _ (stopped _)).1] at last
      obtain ⟨st, t⟩ := co.tracked
      exact le_antisymm t.added last
    have empty := w.settled all_added fun c => .inl (stopped c)
    refine ⟨all_added, ?_⟩
    intro p inside
    by_contra unfinished
    rcases run_noneLost prio h room p (all_added ▸ inside) unfinished with waits | ⟨c, holds⟩
    · rw [empty _ (prio p inside)] at waits
      exact List.not_mem_nil waits
    · obtain ⟨_, none⟩ := w.stopped c (stopped c)
      unfold Cpu.held at holds
      split at holds
      · cases holds
      · cases holds
      · exact nomatch none.symm.trans holds
  · intro c m₁ bs m₂ first found rest others ended
    have reach₁ := reach.tail first
    obtain ⟨seen₁, w₁, own⟩ := w.step cpus co first
    obtain ⟨saw, empty⟩ := (own c).2 rfl found
    obtain ⟨seen₂, w₂, eq, found₂⟩ := watch_run cpus reach₁ w₁ found others rest
    have co₂ := reach_coupled (reach₁.trans ⟨bs, rest⟩)
    exact ⟨empty, (w₂.test_done co₂ found₂ ended).symm.trans (eq.trans saw)⟩

def solo : Config where
  timeSlot := 1
  numCpus := 1
  numProcesses := 1
  ldProcesses := fun _ => ⟨0, 0, 0, [⟨.calc, 0, 0, 0⟩]⟩

instance : NeZero solo.numCpus := ⟨Nat.succ_ne_zero _⟩

/-- A slot of loader and CPU with the timer's round, then the last get_proc and the exits. -/
def soloRun : List (MachineAction solo.numCpus) :=
  [.work .loader, .work .loader, .work (.cpu 0), .work (.cpu 0), .work (.cpu 0),
    .timer (.nextSlot .loader), .timer (.nextSlot (.cpu 0))] ++ List.replicate 7 (.timer .timer) ++
  [.timer (.test .loader), .timer (.test (.cpu 0)), .work .loader] ++
  List.replicate 3 (.work (.cpu 0))

theorem safe_shutdown_solo : ∃ m : Machine solo, Reach step (init solo) m ∧
    (m.os.cpu 0).loc = .leaving ∧ m.os.ld.i = 1 ∧ m.os.Finished 0 := by
  obtain ⟨m, through, stopped, at_end⟩ : ∃ m ∈ Transition.run step (init solo) soloRun,
      (∀ c, ¬ (m.os.cpu c).loc.InLoop) ∧ (m.os.cpu 0).loc = .leaving := by
    decide +kernel
  have room : EachStep step HasRoom (init solo) soloRun := by decide +kernel
  obtain ⟨added, finished⟩ :=
    (safe_shutdown (by decide) (by decide) through room).1 stopped
  exact ⟨m, ⟨_, through⟩, at_end, added, finished 0 (by decide)⟩

end Machine
end OsSim
