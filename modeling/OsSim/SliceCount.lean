import Mathlib.Algebra.Order.Floor.Div
import OsSim.ResponseBound

/-! How many time slices the processes take. A CPU leaves its loop only after a slice of some
process, so that with more CPUs than slices one of them never does, and the simulation goes on. -/
namespace OsSim
open Transition

/-- A dispatch starts a slice: the CPU and its process. -/
def Event.slice {n : Nat} : Event n → Option (Fin n × Nat)
  | .dispatched c p => some (c, p)
  | .loaded _ | .ran .. | .putBack .. | .finished .. | .stopped _ => none

/-- The slices that the turns of a process fill. -/
def Config.slices (cfg : Config) (p : Nat) : Nat := cfg.demand p ⌈/⌉ cfg.timeSlot.toNat

/-- A CPU that has not been given a process yet, or has not yet dispatched its first one. -/
def Cpu.Fresh (u : Cpu) : Prop :=
  u.timeLeft = 0 ∧ (u.loc.Around ∧ u.proc = none ∨ u.loc = .recheck ∧ u.proc ≠ none)

namespace Os
variable {cfg : Config}

/-- The slices so far, the newest first. -/
def slices (s : Os cfg) : List (Fin cfg.numCpus × Nat) := s.log.filterMap Event.slice

def sliceCount (s : Os cfg) (p : Nat) : Nat := s.slices.countP fun d => d.2 = p

/-- The slices against the turns taken. Those of a process that no CPU has are full, and of one that
a CPU has the last one lacks what time is left. -/
structure Granted (turns : Nat → Nat) (s : Os cfg) : Prop where
  known : ∀ d ∈ s.slices, d.2 ∈ Finset.range cfg.numProcesses
  within : ∀ p, s.sliceCount p ≤ cfg.slices p
  held : ∀ c p, (s.cpu c).held = some p →
    s.sliceCount p * cfg.timeSlot.toNat ≤ turns p + (s.cpu c).timeLeft.toNat
  full : ∀ p, ¬ s.Finished p → (∀ c, (s.cpu c).held ≠ some p) →
    s.sliceCount p * cfg.timeSlot.toNat ≤ turns p
  fresh : ∀ c, (∀ d ∈ s.slices, d.1 ≠ c) → (s.cpu c).Fresh

theorem Granted.init : Granted (fun _ => 0) (init cfg) where
  known _ member := nomatch member
  within _ := Nat.zero_le _
  held _ _ holds := nomatch holds
  full _ _ _ := (Nat.zero_mul _).le
  fresh _ _ := ⟨rfl, .inl ⟨.inl rfl, rfl⟩⟩

section Steps
variable {s s' : Os cfg} {turns : Nat → Nat} {c : Fin cfg.numCpus} {st : Nat → Stage cfg.numCpus}

/-- A step without a dispatch. -/
theorem Granted.quiet (granted : s.Granted turns) (same : s'.slices = s.slices)
    (finished : ∀ p, s.Finished p → s'.Finished p)
    (held : ∀ d p, (s'.cpu d).held = some p →
      s.sliceCount p * cfg.timeSlot.toNat ≤ turns p + (s'.cpu d).timeLeft.toNat)
    (dropped : ∀ d p, (s.cpu d).held = some p → ¬ s'.Finished p → (s'.cpu d).held ≠ some p →
      s.sliceCount p * cfg.timeSlot.toNat ≤ turns p)
    (fresh : ∀ d, (s.cpu d).Fresh → (s'.cpu d).Fresh) : s'.Granted turns := by
  have count : ∀ p, s'.sliceCount p = s.sliceCount p := fun p => by rw [sliceCount, same]; rfl
  refine ⟨same ▸ granted.known, fun p => count p ▸ granted.within p,
    fun d p holds => count p ▸ held d p holds, fun p unfinished away => ?_,
    fun d none => fresh d (granted.fresh d (same ▸ none))⟩
  rw [count]
  by_cases before : ∃ d, (s.cpu d).held = some p
  · obtain ⟨d, holds⟩ := before
    exact dropped d p holds unfinished (away d)
  · exact granted.full p (fun ended => unfinished (finished p ended)) (not_exists.mp before)

/-- One in which one CPU moves. -/
theorem Granted.move (granted : s.Granted turns) (same : s'.slices = s.slices)
    (finished : ∀ p, s.Finished p → s'.Finished p) (others : ∀ d ≠ c, s'.cpu d = s.cpu d)
    (held : ∀ p, (s'.cpu c).held = some p →
      s.sliceCount p * cfg.timeSlot.toNat ≤ turns p + (s'.cpu c).timeLeft.toNat)
    (dropped : ∀ p, (s.cpu c).held = some p → ¬ s'.Finished p → (s'.cpu c).held ≠ some p →
      s.sliceCount p * cfg.timeSlot.toNat ≤ turns p)
    (fresh : (s.cpu c).Fresh → (s'.cpu c).Fresh) : s'.Granted turns := by
  refine granted.quiet same finished (fun d p holds => ?_) (fun d p holds unfinished away => ?_)
    fun d before => ?_
  all_goals by_cases own : d = c
  · exact own ▸ held p (own ▸ holds)
  · rw [others d own] at holds ⊢
    exact granted.held d p holds
  · exact dropped p (own ▸ holds) unfinished (own ▸ away)
  · exact absurd ((others d own).symm ▸ holds) away
  · exact own ▸ fresh (own ▸ before)
  · exact (others d own).symm ▸ before

/-- One that leaves the CPUs alone. -/
theorem Granted.frame (granted : s.Granted turns) (same : s'.slices = s.slices)
    (finished : ∀ p, s.Finished p → s'.Finished p) (cpu : s'.cpu = s.cpu) : s'.Granted turns := by
  refine granted.quiet same finished (fun d p holds => ?_) (fun d p holds _ away => ?_) fun d => ?_
  · rw [cpu] at holds ⊢
    exact granted.held d p holds
  · exact absurd (cpu ▸ holds) away
  · exact cpu ▸ id

/-- More turns do no harm. -/
theorem Granted.mono (granted : s.Granted turns) {turns' : Nat → Nat}
    (more : ∀ p, turns p ≤ turns' p) : s.Granted turns' where
  known := granted.known
  within := granted.within
  held c p holds := (granted.held c p holds).trans (Nat.add_le_add_right (more p) _)
  full p unfinished away := (granted.full p unfinished away).trans (more p)
  fresh := granted.fresh

theorem Tracks.taken_waiting (t : Tracks st s) {p : Nat}
    (taken : (s.sched.getMlqProc cfg.priority).1 = some p) : st p = .waiting := by
  rcases Sched.getMlqProc_cases cfg.priority t.static with
    ⟨_, eq⟩ | ⟨l, older, x, newer, sched, lowest, eq, -, level, -, -⟩
  · rw [eq] at taken
    cases taken
  · rw [eq] at taken
    obtain rfl := Option.some.inj taken
    exact ((t.waiting l lowest.1 x).mp (by rw [level]; simp)).1

/-- A CPU that holds nothing asks for a process. -/
theorem Granted.getProc (t : Tracks st s) (granted : s.Granted turns)
    (none_held : (s.cpu c).held = none) (left : Int) (loc : Option Nat → CpuLoc)
    (out : ∀ r, loc r ≠ .afterFinish ∧ loc r ≠ .afterPut)
    (fresh : (s.cpu c).Fresh → ∀ r, Cpu.Fresh ⟨loc r, r, left⟩) :
    (s.getProc c left loc).Granted turns := by
  have comes_to : (s.getProc c left loc).cpu c =
      ⟨loc (s.sched.getMlqProc cfg.priority).1, (s.sched.getMlqProc cfg.priority).1, left⟩ :=
    setCpu_same _ c _
  refine granted.move (c := c) rfl (fun _ => id) (fun d other => ?_) (fun p holds => ?_)
    (fun p holds => ?_) (fun before => ?_)
  · exact (setCpu_cpu _ c d _).trans (if_neg other)
  · rw [comes_to, Cpu.held_eq (out _).1 (out _).2] at holds
    have waits := t.taken_waiting holds
    refine (granted.full p ?_ fun d held => ?_).trans (Nat.le_add_right _ _)
    · rw [t.finished, waits]
      nofun
    · cases waits.symm.trans ((t.held d p).mp held)
  · cases none_held.symm.trans holds
  · rw [comes_to]
    exact fresh before _

/-- A dispatch, which starts a slice of a process with turns left. -/
theorem Granted.dispatch (t : Tracks st s) (pos : 1 ≤ cfg.timeSlot) (granted : s.Granted turns)
    {p : Nat} (here : (s.cpu c).loc = .recheck) (proc : (s.cpu c).proc = some p)
    (expired : (s.cpu c).timeLeft = 0) (left : turns p < cfg.demand p) :
    ((s.setCpu c ⟨.running, some p, cfg.timeSlot⟩).note (.dispatched c p)).Granted turns := by
  have holds : (s.cpu c).held = some p := by
    rw [Cpu.held_eq (by rw [here]; nofun) (by rw [here]; nofun), proc]
  have added : p < cfg.numProcesses := by
    refine lt_of_not_ge fun late => ?_
    have unborn := (t.unborn p).mpr (t.added.trans late)
    cases unborn.symm.trans ((t.held c p).mp holds)
  have count : ∀ q, sliceCount ((s.setCpu c ⟨.running, some p, cfg.timeSlot⟩).note
      (.dispatched c p)) q = s.sliceCount q + if p = q then 1 else 0 := by
    intro q
    simp only [sliceCount, slices, note_log, setCpu_log, List.filterMap_cons, Event.slice,
      List.countP_cons, decide_eq_true_eq]
  have so_far : s.sliceCount p * cfg.timeSlot.toNat ≤ turns p := by
    have bound := granted.held c p holds
    rwa [expired] at bound
  refine ⟨?_, fun q => ?_, fun d q holds' => ?_, fun q unfinished away => ?_, fun d none => ?_⟩
  · exact List.forall_mem_cons.mpr ⟨Finset.mem_range.mpr added, granted.known⟩
  · rw [count]
    split
    · rename_i own
      subst own
      have slot : 0 < cfg.timeSlot.toNat := by omega
      refine Nat.succ_le_of_lt (lt_of_not_ge fun most => ?_)
      have filled := (ceilDiv_le_iff_le_mul slot).mp most
      rw [Nat.mul_comm] at filled
      exact absurd (filled.trans so_far) (Nat.not_le_of_lt left)
    · exact granted.within q
  · rw [count, note_cpu, setCpu_cpu]
    rw [note_cpu, setCpu_cpu] at holds'
    by_cases own : d = c
    · rw [if_pos own] at holds' ⊢
      obtain rfl : p = q := Option.some.inj holds'
      rw [if_pos rfl, Nat.add_mul, Nat.one_mul]
      exact Nat.add_le_add_right so_far _
    · rw [if_neg own] at holds' ⊢
      have other : p ≠ q := by
        rintro rfl
        exact own (t.exclusive.cpus d c p holds' holds)
      rw [if_neg other]
      exact granted.held d q holds'
  · have other : p ≠ q := by
      rintro rfl
      refine away c ?_
      rw [note_cpu, setCpu_same]
      rfl
    rw [count, if_neg other]
    refine granted.full q (fun ended => unfinished ((finished_note _ _ q).mpr (.inl ended)))
      fun d held => ?_
    by_cases own : d = c
    · subst own
      exact other (Option.some.inj (holds.symm.trans held))
    · refine away d ?_
      rw [note_cpu, setCpu_cpu, if_neg own]
      exact held
  · have other : d ≠ c := fun own => none (c, p) List.mem_cons_self own.symm
    rw [note_cpu, setCpu_cpu, if_neg other]
    exact granted.fresh d fun e member => none e (List.mem_cons_of_mem _ member)

/-- A call of run, which is a turn of the slice. -/
theorem Granted.run (granted : s.Granted turns) {p : Nat} (here : (s.cpu c).loc = .running)
    (proc : (s.cpu c).proc = some p) :
    ((s.run c p).setCpu c ⟨.slotDue, some p, (s.cpu c).timeLeft - 1⟩).Granted
      fun q => turns q + if p = q then 1 else 0 := by
  obtain ⟨-, cpu, -, -, ins, log⟩ := s.run_frame c p
  have holds : (s.cpu c).held = some p := by
    rw [Cpu.held_eq (by rw [here]; nofun) (by rw [here]; nofun), proc]
  refine (granted.mono fun q => Nat.le_add_right _ _).move (c := c) ?_ ?_ (fun d other => ?_)
    (fun q holds' => ?_) (fun q holds' _ away => ?_) (fun fresh => ?_)
  · simp only [slices, setCpu_log, log, List.filterMap_cons, Event.slice]
  · rintro q ⟨d, reported⟩
    refine ⟨d, ?_⟩
    rw [setCpu_log, log]
    exact List.mem_cons_of_mem _ reported
  · rw [setCpu_cpu, if_neg other, cpu]
  · rw [setCpu_same] at holds' ⊢
    obtain rfl : p = q := Option.some.inj holds'
    have bound := granted.held c p holds
    rw [if_pos rfl]
    dsimp only
    omega
  · rw [setCpu_same] at away
    exact absurd (holds.symm.trans holds') away
  · rcases fresh.2 with ⟨around, -⟩ | ⟨recheck, -⟩
    · rw [here] at around
      simp [CpuLoc.Around] at around
    · cases here.symm.trans recheck

/-- A CPU that goes on with its process or without one, or gives its process up. -/
theorem Granted.keep (granted : s.Granted turns) {u : Cpu} (log : s'.slices = s.slices)
    (finished : ∀ p, s.Finished p → s'.Finished p) (cpu : s'.cpu = (s.setCpu c u).cpu)
    (held : u.held = (s.cpu c).held) (left : u.timeLeft = (s.cpu c).timeLeft)
    (fresh : (s.cpu c).Fresh → u.Fresh) : s'.Granted turns := by
  have comes_to : s'.cpu c = u := (congrFun cpu c).trans (s.setCpu_same c u)
  refine granted.move (c := c) log finished (fun d other => ?_) (fun p holds => ?_)
    (fun p holds _ away => ?_) (comes_to ▸ fresh)
  · rw [cpu, setCpu_cpu, if_neg other]
  · rw [comes_to, held] at holds
    rw [comes_to, left]
    exact granted.held c p holds
  · rw [comes_to, held] at away
    exact absurd holds away

/-- The step lemma for the CPU's own steps but for the turns. -/
theorem Granted.cpuMove (t : Tracks st s) (pos : 1 ≤ cfg.timeSlot) (granted : s.Granted turns)
    (left : ∀ p, (s.cpu c).loc = .recheck → (s.cpu c).proc = some p → turns p < cfg.demand p)
    (no_turn : (s.cpu c).loc ≠ .running) (move : CpuMove s c s') : s'.Granted turns := by
  have noted : ∀ {e}, s'.log = e :: s.log → ∀ p, s.Finished p → s'.Finished p :=
    fun log p finished => finished.imp fun d reported => log ▸ List.mem_cons_of_mem _ reported
  have has : ∀ {loc}, (s.cpu c).loc = loc → loc ≠ .afterFinish → loc ≠ .afterPut →
      (s.cpu c).held = (s.cpu c).proc :=
    fun here away away' => Cpu.held_eq (here ▸ away) (here ▸ away')
  cases move with
  | load here none =>
      refine granted.getProc t ((has here nofun nofun).trans none) _ _ (fun r => ?_) ?_
      · cases r <;> exact ⟨nofun, nofun⟩
      · intro fresh r
        refine ⟨fresh.1, ?_⟩
        cases r with
        | none => exact .inl ⟨.inr (.inl rfl), rfl⟩
        | some p => exact .inr ⟨rfl, nofun⟩
  | @report p here proc =>
      refine granted.move (c := c) rfl (noted rfl) (fun d other => ?_) (fun q holds => ?_)
        (fun q holds unfinished => ?_) (fun fresh => ?_)
      · rw [note_cpu, setCpu_cpu, if_neg other]
      · rw [note_cpu, setCpu_same] at holds
        cases holds
      · rw [has here nofun nofun, proc] at holds
        obtain rfl := Option.some.inj holds
        exact absurd ((finished_note _ _ p).mpr (.inr ⟨c, rfl⟩)) unfinished
      · simp [Cpu.Fresh, here, proc] at fresh
  | @expire p here proc _ expired =>
      refine granted.move (c := c) rfl (noted rfl) (fun d other => ?_) (fun q holds => ?_)
        (fun q holds _ _ => ?_) (fun fresh => ?_)
      · rw [note_cpu, setCpu_cpu, if_neg other]
      · rw [note_cpu, setCpu_same] at holds
        cases holds
      · have bound := granted.held c q holds
        rwa [expired] at bound
      · simp [Cpu.Fresh, here, proc] at fresh
  | resume here proc =>
      refine granted.keep rfl (fun _ => id) rfl ?_ rfl fun fresh => ?_
      · exact ((has here nofun nofun).trans proc).symm
      · simp [Cpu.Fresh, here, proc] at fresh
  | afterFinish here | afterPut here =>
      refine granted.getProc t ?_ _ _ (fun _ => ⟨nofun, nofun⟩) fun fresh => ?_
      · rw [Cpu.held, here]
      · simp [Cpu.Fresh, here, CpuLoc.Around] at fresh
  | stop here none =>
      refine granted.keep rfl (noted rfl) rfl ?_ rfl fun fresh => ?_
      · exact ((has here nofun nofun).trans none).symm
      · simp [Cpu.Fresh, here, none, CpuLoc.Around] at fresh
  | skip here none =>
      refine granted.keep rfl (fun _ => id) rfl ?_ rfl fun fresh => ?_
      · exact ((has here nofun nofun).trans none).symm
      · simp [Cpu.Fresh, here, none, CpuLoc.Around] at fresh
  | @dispatch p here proc expired =>
      exact granted.dispatch t pos here proc expired (left p here proc)
  | proceed here proc going =>
      refine granted.keep rfl (fun _ => id) rfl ?_ rfl fun fresh => absurd fresh.1 going
      exact ((has here nofun nofun).trans proc).symm
  | run here => exact absurd here no_turn

end Steps

/-- A CPU that is out of its loop has had a slice. -/
theorem Granted.of_left {s : Os cfg} {turns : Nat → Nat} (granted : s.Granted turns)
    {c : Fin cfg.numCpus} (out : ¬ (s.cpu c).loc.InLoop) : ∃ d ∈ s.slices, d.1 = c := by
  by_contra none
  have fresh := granted.fresh c fun d member own => none ⟨d, member, own⟩
  refine out ?_
  rcases fresh.2 with ⟨here | here | here, -⟩ | ⟨here, -⟩ <;> rw [here] <;> decide

end Os

namespace Machine
variable {cfg : Config} {m m' : Machine cfg}

/-- The step lemma. -/
theorem granted_step (co : m.Coupled) (pos : 1 ≤ cfg.timeSlot) {past : List (Turn cfg.numCpus)}
    (spent : m.Spent past) (granted : m.os.Granted (turnCount past))
    {a : MachineAction cfg.numCpus} (h : m.step a = some m') :
    m'.os.Granted (turnCount (m.turns a m' ++ past)) := by
  obtain ⟨st, t⟩ := co.tracked
  cases step_move h with
  | alone => exact granted
  | work moved =>
      cases Os.step_move moved with
      | @cpu c _ move =>
          by_cases here : (m.os.cpu c).loc = .running
          · cases move with
            | @run p _ proc =>
                have count : turnCount (⟨m.timer.currentTime, c, p, (cfg.code p)[m.os.pc p]?⟩ ::
                    past) = fun q => turnCount past q + if p = q then 1 else 0 := by
                  funext q
                  simp only [turnCount, List.countP_cons, decide_eq_true_eq]
                rw [turns, if_pos here, proc]
                exact count ▸ granted.run here proc
            | load other | report other | expire other | resume other | afterFinish other
            | afterPut other | stop other | skip other | dispatch other | proceed other =>
                cases here.symm.trans other
          · rw [turns, if_neg here]
            refine granted.cpuMove t pos (fun p there proc => ?_) here move
            have away : (m.os.cpu c).loc ≠ .afterFinish := by simp [there]
            have away' : (m.os.cpu c).loc ≠ .afterPut := by simp [there]
            have holds : (m.os.cpu c).held = some p := (Cpu.held_eq away away').trans proc
            refine spent.more p (t.not_finished away away' proc) ?_
            rintro ⟨d, held, around⟩
            rw [t.exclusive.cpus d c p held holds, there] at around
            simp [CpuLoc.Around] at around
      | loader move =>
          cases move with
          | add =>
              refine granted.frame rfl (fun p finished => ?_) rfl
              exact (Os.finished_note _ _ p).mpr (.inl finished)
          | early | due | finish => exact granted.frame rfl (fun _ => id) rfl
  | call _ moved | ret _ _ moved | detach _ moved =>
      cases Os.step_move moved with
      | ldTimer => exact granted.frame rfl (fun _ => id) rfl
      | cpuTimer after =>
          refine granted.keep rfl (fun _ => id) rfl (CpuLoc.after_held after _ _ _) rfl ?_
          rintro ⟨none_left, ⟨around, none⟩ | ⟨recheck, -⟩⟩
          · exact ⟨none_left, .inl ⟨around.after after, none⟩⟩
          · rw [recheck] at after
            cases after

theorem reach_granted (pos : 1 ≤ cfg.timeSlot) (reach : Reach step (init cfg) m) :
    ∃ past : List (Turn cfg.numCpus), m.os.Granted (turnCount past) := by
  obtain ⟨as, runs⟩ := reach
  obtain ⟨past, -, -, -, granted⟩ := run_beside
    (P := fun m past => Reach step (init cfg) m ∧ m.Spent past ∧ m.os.Granted (turnCount past))
    (fun m a m' past ⟨reach, spent, granted⟩ h => by
      have co := reach_coupled reach
      have order := (Os.reach_inOrder (reach_os reach)).1
      exact ⟨reach.tail h, spent.step co order h, granted_step co pos spent granted h⟩)
    runs ⟨.refl _, .init cfg, .init⟩
  exact ⟨past, granted⟩

/-- At most one CPU leaves its loop for each slice that the processes take; so with more CPUs than
slices the simulation never ends, in whatever order the threads take their steps. -/
theorem cpus_le_slices (pos : 1 ≤ cfg.timeSlot) (reach : Reach step (init cfg) m) :
    (Finset.univ.filter fun c => ¬ (m.os.cpu c).loc.InLoop).card ≤
        ∑ p ∈ Finset.range cfg.numProcesses, cfg.slices p ∧
      (∑ p ∈ Finset.range cfg.numProcesses, cfg.slices p < cfg.numCpus →
        m.timer.loc ≠ .exited ∧ ∃ a, Own a ∧ (m.step a).isSome) := by
  obtain ⟨past, granted⟩ := reach_granted pos reach
  have left : (Finset.univ.filter fun c => ¬ (m.os.cpu c).loc.InLoop).card ≤
      ∑ p ∈ Finset.range cfg.numProcesses, cfg.slices p := by
    have each : ∀ c ∈ Finset.univ.filter fun c => ¬ (m.os.cpu c).loc.InLoop,
        ∃ d ∈ m.os.slices, d.1 = c := fun c member =>
      granted.of_left (Finset.mem_filter.mp member).2
    calc _ ≤ m.os.slices.length := Chart.units_le each
      _ ≤ ∑ p ∈ Finset.range cfg.numProcesses, m.os.sliceCount p :=
        Chart.length_le_sum_count granted.known
      _ ≤ _ := Finset.sum_le_sum fun p _ => granted.within p
  refine ⟨left, fun few => ?_⟩
  have running : m.timer.loc ≠ .exited := by
    intro ended
    have out : ∀ c, ¬ (m.os.cpu c).loc.InLoop := fun c inLoop =>
      (exited_detached reach ended (.cpu c)).elim (fun gone => inLoop.2 (Sum.inl.inj gone)) nofun
    rw [Finset.filter_true_of_mem fun c _ => out c, Finset.card_univ, Fintype.card_fin] at left
    exact absurd few (Nat.not_lt_of_le left)
  exact ⟨running, goes_on reach running⟩

/-- One CPU for one slice comes to the end; of two CPUs one goes round for ever. -/
theorem cpus_le_slices_solo : (∃ m : Machine solo, Reach step (init solo) m ∧
      m.timer.loc.left 2 = 0 ∧ 1 ≤ ∑ p ∈ Finset.range solo.numProcesses, solo.slices p) ∧
    ∀ m : Machine Os.lone, Reach step (init Os.lone) m → m.timer.loc ≠ .exited := by
  constructor
  · obtain ⟨m, through, ended, out⟩ : ∃ m ∈ run step (init solo) soloEnd,
        m.timer.loc.left 2 = 0 ∧ (Finset.univ.filter fun c =>
          ¬ (m.os.cpu c).loc.InLoop).card = 1 := by
      decide +kernel
    exact ⟨m, ⟨_, through⟩, ended, out ▸ (cpus_le_slices (by decide) ⟨_, through⟩).1⟩
  · exact fun m reach => ((cpus_le_slices (by decide) reach).2 (by decide +kernel)).1

end Machine
end OsSim
