import OsSim.InTurn

/-! How long a process waits, in slots. While it waits get_proc never returns NULL, so that from
the next slot on no CPU is idle; and the turns that fill the slots come out of the slices that
the CPUs began with, and of one slice for each process taken meanwhile. -/
namespace OsSim
open Transition

/-- The turns that are left of a slice. A process that has just been taken has all of them. -/
def Cpu.turnsLeft (timeSlot : Nat) (u : Cpu) : Nat :=
  match u.loc, u.proc with
  | .recheck, some _ => if u.timeLeft = 0 then timeSlot else u.timeLeft.toNat
  | .top, some _ | .running, some _ | .slotDue, some _ | .inSlot, some _ => u.timeLeft.toNat
  | _, _ => 0

namespace Os
variable {cfg : Config} {s s' : Os cfg} {c : Fin cfg.numCpus} {timeSlot : Nat}

theorem OnSlice.turnsLeft_le {past : List Mark} {u : Cpu} (on : OnSlice timeSlot past u) :
    u.turnsLeft timeSlot ≤ timeSlot := by
  obtain ⟨loc, proc, left⟩ := u
  unfold OnSlice at on
  cases proc with
  | none => cases loc <;> exact Nat.zero_le _
  | some p =>
      cases loc with
      | top =>
          obtain ⟨k, -, -, rfl, -⟩ := on
          change ((timeSlot : Int) - k).toNat ≤ _
          omega
      | recheck =>
          rcases on with rfl | ⟨k, -, rfl, -⟩
          · exact le_rfl
          · change (if (timeSlot : Int) - k = 0 then timeSlot else ((timeSlot : Int) - k).toNat) ≤ _
            split <;> omega
      | running =>
          obtain ⟨k, -, rfl, -⟩ := on
          change ((timeSlot : Int) - k).toNat ≤ _
          omega
      | slotDue | inSlot =>
          obtain ⟨k, -, _, -, rfl, -⟩ := on
          change ((timeSlot : Int) - k - 1).toNat ≤ _
          omega
      | afterFinish | afterPut | leaving | detached => exact Nat.zero_le _

/-- What get_proc returns has a whole slice before it. -/
theorem getProc_turnsLeft {loc : Option Nat → CpuLoc}
    (next : loc none = .recheck ∨ loc none = .slotDue) (next' : ∀ p, loc (some p) = .recheck) :
    ((s.getProc c 0 loc).cpu c).turnsLeft timeSlot =
      timeSlot * (s.sched.getMlqProc cfg.priority).1.toList.length := by
  rw [getProc, setCpu_same]
  cases (s.sched.getMlqProc cfg.priority).1 with
  | none => rcases next with eq | eq <;> simp [Cpu.turnsLeft, eq]
  | some p => simp [Cpu.turnsLeft, next']

/-- A CPU's own step uses up a turn with each call of run, and gets more of them only with the
process that it takes. -/
theorem CpuMove.turnsLeft (move : CpuMove s c s') (slot : cfg.timeSlot = timeSlot)
    {past : List Mark} (on : OnSlice timeSlot past (s.cpu c)) :
    (if (s.cpu c).loc = .running then 1 else 0) + (s'.cpu c).turnsLeft timeSlot ≤
      (s.cpu c).turnsLeft timeSlot + timeSlot * (s.taken c).length := by
  have got : s.Asks c → (s.cpu c).loc ≠ .running → (s'.cpu c).turnsLeft timeSlot =
      timeSlot * (s.sched.getMlqProc cfg.priority).1.toList.length →
      (if (s.cpu c).loc = .running then 1 else 0) + (s'.cpu c).turnsLeft timeSlot ≤
        (s.cpu c).turnsLeft timeSlot + timeSlot * (s.taken c).length := by
    intro asks away eq
    rw [taken, if_pos asks, if_neg away, eq, Nat.zero_add]
    exact Nat.le_add_left _ _
  unfold OnSlice at on
  cases move with
  | load here none =>
      rw [here, none] at on
      refine got (.inl ⟨here, none⟩) (by simp [here]) ?_
      rw [show (s.cpu c).timeLeft = 0 from on]
      exact getProc_turnsLeft (.inr rfl) fun _ => rfl
  | afterFinish here =>
      exact got (.inr (.inl here)) (by simp [here]) (getProc_turnsLeft (.inl rfl) fun _ => rfl)
  | afterPut here =>
      rw [here] at on
      refine got (.inr (.inr here)) (by simp [here]) ?_
      rw [show (s.cpu c).timeLeft = 0 from on]
      exact getProc_turnsLeft (.inl rfl) fun _ => rfl
  | report here has | expire here has => simp [Cpu.turnsLeft, here]
  | resume here has more going => simp [Cpu.turnsLeft, here, has, going]
  | stop here none | skip here none => simp [Cpu.turnsLeft, here]
  | dispatch here has zero => simp [Cpu.turnsLeft, here, has, zero, slot]
  | proceed here has going => simp [Cpu.turnsLeft, here, has, going]
  | run here has =>
      rw [here, has] at on
      obtain ⟨k, bound, left, -⟩ := on
      simp only [here, if_true, setCpu_same, Cpu.turnsLeft, has, left]
      omega

theorem after_turnsLeft {k : TimerCall} {loc loc' : CpuLoc} (after : loc.after k = some loc')
    (proc : Option Nat) (left : Int) :
    Cpu.turnsLeft timeSlot ⟨loc', proc, left⟩ = Cpu.turnsLeft timeSlot ⟨loc, proc, left⟩ := by
  rcases CpuLoc.after_cases after with ⟨-, rfl, rfl⟩ | ⟨-, rfl, rfl⟩ | ⟨-, rfl, rfl⟩ <;>
    cases proc <;> rfl

end Os
namespace Machine
variable {cfg : Config} {m m' : Machine cfg} {start budget : Nat} {record : List Nat}
  {since past : List (Turn cfg.numCpus)}

/-- The turns left of all the slices that the CPUs are in. -/
def turnsLeft (m : Machine cfg) : Nat := ∑ c, (m.os.cpu c).turnsLeft cfg.timeSlot.toNat

/-- What is so since a slot in which a process began to wait: no CPU has found the queues empty in
a later one, all CPUs have had their turns in the later ones that are over, and the turns are
paid for by what was left of the slices and by the processes taken. -/
structure Busy (start budget : Nat) (m : Machine cfg) (record : List Nat)
    (since : List (Turn cfg.numCpus)) : Prop where
  spare : start < m.timer.time → ∀ c, ¬ m.Spare c
  full : ∀ s, start < s → s < m.timer.time → ∀ c, ∃ t ∈ since, t.slot = s ∧ t.cpu = c
  paid : since.length + m.turnsLeft ≤ budget + cfg.timeSlot.toNat * record.length

theorem Busy.init (m : Machine cfg) : m.Busy m.timer.time m.turnsLeft [] [] where
  spare later := absurd later (lt_irrefl _)
  full s after before := absurd (after.trans before) (lt_irrefl _)
  paid := by simp

section Steps
variable {os : Os cfg} {timer : Timer (Thread cfg.numCpus)} {c : Fin cfg.numCpus}

/-- A step in which no CPU comes to be spare, and none takes its turn. -/
theorem Busy.same (busy : m.Busy start budget record since)
    (clock : m'.timer.time = m.timer.time) (spare : ∀ c, m'.Spare c → m.Spare c)
    (left : m'.turnsLeft = m.turnsLeft) : m'.Busy start budget record since where
  spare later c idle := busy.spare (clock ▸ later) c (spare c idle)
  full s after before := busy.full s after (clock ▸ before)
  paid := left ▸ busy.paid

theorem turns_length (m : Machine cfg) (c : Fin cfg.numCpus) (m' : Machine cfg) :
    (m.turns (.work (.cpu c)) m').length ≤ if (m.os.cpu c).loc = .running then 1 else 0 := by
  unfold turns
  dsimp only
  split
  · cases (m.os.cpu c).proc <;> simp
  · exact le_rfl

/-- A CPU's own step, after which the process is still waiting. -/
theorem Busy.cpuMove (co : m.Coupled) (busy : m.Busy start budget record since)
    (move : Os.CpuMove m.os c os) (waits : os.waits ≠ 0) (slot : 0 ≤ cfg.timeSlot)
    {marks : List Mark} (on : Os.OnSlice cfg.timeSlot.toNat marks (m.os.cpu c)) :
    Busy start budget ⟨os, m.timer⟩ (m.taken (.work (.cpu c)) ⟨os, m.timer⟩ ++ record)
      (m.turns (.work (.cpu c)) ⟨os, m.timer⟩ ++ since) := by
  have others := move.frame.2.2
  refine ⟨fun later d idle => busy.spare later d ?_, fun s after before d => ?_, ?_⟩
  · by_cases own : d = c
    · subst own
      exact (cpuMove_spare co move idle).resolve_right waits
    · exact idle.congr (others d own) rfl rfl
  · obtain ⟨t, turn, is⟩ := busy.full s after before d
    exact ⟨t, List.mem_append_right _ turn, is⟩
  · have left := sum_one (f := fun d => (m.os.cpu d).turnsLeft cfg.timeSlot.toNat)
      (g := fun d => (os.cpu d).turnsLeft cfg.timeSlot.toNat) (Finset.mem_univ c)
      fun d _ other => by rw [others d other]
    have whole : cfg.timeSlot = (cfg.timeSlot.toNat : Int) := (Int.toNat_of_nonneg slot).symm
    have used := move.turnsLeft whole on
    have turn := m.turns_length c ⟨os, m.timer⟩
    have paid := busy.paid
    unfold turnsLeft at paid ⊢
    rw [List.length_append, List.length_append, Nat.mul_add]
    dsimp only [taken] at used ⊢
    omega

/-- A CPU that has left its loop has no process, and nothing of a slice. -/
theorem Busy.tick (co : m.Coupled) (inStep : m.InStep) (con : m.Conserving (since ++ past))
    (earlier : ∀ t ∈ past, t.slot ≤ start) (busy : m.Busy start budget record since)
    (waits : m.os.waits ≠ 0) (here : m.timer.loc = .examine [])
    (clock : timer.time = m.timer.time + 1) (dev : timer.dev = m.timer.dev) :
    Busy start budget ⟨m.os, timer⟩ record since := by
  have inLoop : ∀ c, (m.os.cpu c).loc.InLoop := fun c => by
    by_contra out
    exact waits (con.none_left co inStep here out)
  refine ⟨fun _ c idle => ?_, fun s after before c => ?_, busy.paid⟩
  · exact spare_ticked co inStep here clock dev idle (inLoop c)
  · rcases Nat.lt_or_eq_of_le (Nat.le_of_lt_succ (clock ▸ before)) with before | rfl
    · exact busy.full s after before c
    · have used : m.Used c := .inr <| (slot_over co inStep here c).resolve_right (inLoop c).2
      cases has : (m.os.cpu c).proc with
      | none => exact absurd ⟨has, .inr (.inl used)⟩ (busy.spare after c)
      | some p =>
          obtain ⟨t, turn, now, own, -⟩ := con.ran c p has used
          refine ⟨t, (List.mem_append.mp turn).resolve_right fun old => ?_, now, own⟩
          exact absurd (now ▸ earlier t old) (Nat.not_le.mpr after)

theorem Busy.timerCall (busy : m.Busy start budget record since)
    {a : TimerAction (Thread cfg.numCpus)} (ticked : m.timer.step (devList _) a = some timer)
    (clock : timer.time = m.timer.time) {now : Nat} {k : TimerCall} {t : Thread cfg.numCpus}
    (moved : m.os.step now (.timer k t) = some os) (only : ∀ u ≠ t, a ≠ .nextSlot u) :
    Busy start budget ⟨os, timer⟩ record since := by
  refine busy.same clock (fun c idle => ?_) ?_
  · obtain ⟨proc, -, used, recheck, inLoop⟩ := timerCall_cpus ticked clock moved only c
    exact ⟨proc ▸ idle.1, idle.2.imp recheck (Or.imp used inLoop)⟩
  · unfold turnsLeft
    refine Finset.sum_congr rfl fun d _ => ?_
    cases Os.step_move moved with
    | @cpuTimer _ loc c after =>
        rw [Os.setCpu_cpu]
        split
        · rename_i own
          subst own
          exact Os.after_turnsLeft after _ _
        · rfl
    | ldTimer => rfl

/-- The step lemma. -/
theorem Busy.step (co : m.Coupled) (inStep : m.InStep) (con : m.Conserving (since ++ past))
    (earlier : ∀ t ∈ past, t.slot ≤ start) (busy : m.Busy start budget record since)
    (slot : 0 ≤ cfg.timeSlot)
    (on : ∀ c, ∃ marks, Os.OnSlice cfg.timeSlot.toNat marks (m.os.cpu c))
    {a : MachineAction cfg.numCpus} (h : m.step a = some m') (waits : m'.os.waits ≠ 0) :
    m'.Busy start budget (m.taken a m' ++ record) (m.turns a m' ++ since) := by
  cases step_move h with
  | work moved =>
      cases Os.step_move moved with
      | cpu move =>
          obtain ⟨marks, on⟩ := on _
          exact busy.cpuMove co move waits slot on
      | loader move =>
          have cpu := move.frame_cpu
          refine busy.same rfl (fun c idle => ?_) ?_
          · exact idle.congr (congrFun cpu c) rfl rfl
          · unfold turnsLeft
            rw [cpu]
  | alone ticked no_call =>
      rcases Timer.step_clock ticked with still | ⟨-, here, rfl⟩
      · refine busy.same still (fun c idle => ?_) rfl
        exact idle.congr rfl ((Timer.step_devMove ticked _).calls (no_call _)) still
      · exact busy.tick co inStep con earlier waits here rfl rfl
  | call ticked moved =>
      exact busy.timerCall ticked (Timer.step_still ticked nofun) moved
        fun u other same => other (by cases same; rfl)
  | ret ticked _ moved | detach ticked moved =>
      exact busy.timerCall ticked (Timer.step_still ticked nofun) moved nofun

end Steps
theorem reach_onSlice (pos : 1 ≤ cfg.timeSlot) (reach : Reach step (init cfg) m)
    (c : Fin cfg.numCpus) : ∃ marks, Os.OnSlice cfg.timeSlot.toNat marks (m.os.cpu c) := by
  obtain ⟨as, runs⟩ := reach_os reach
  obtain ⟨past, -, inside⟩ := run_beside
    (P := fun s past => s.InSlices cfg.timeSlot.toNat c past)
    (fun s a t past inside step => Os.step_slices (by omega) (by omega) inside step)
    runs ⟨rfl, .nil⟩
  exact ⟨past, inside.onSlice⟩

section Waiting
variable {p : Nat} {as : List (MachineAction cfg.numCpus)}

/-- A process that a step does not take out of its queue waits on. -/
theorem step_waits (prio : ∀ p < cfg.numProcesses, cfg.prio p < maxPrio)
    (reach : Reach step (init cfg) m) (inside : p < cfg.numProcesses)
    (waiting : p ∈ m.os.sched.level (cfg.prio p)) {a : MachineAction cfg.numCpus}
    (h : m.step a = some m') (left : p ∉ m.taken a m') :
    p ∈ m'.os.sched.level (cfg.prio p) := by
  obtain ⟨ahead, behind, level⟩ := List.append_of_mem waiting
  obtain ⟨pool, holds⟩ := reach_holds prio reach
  obtain ⟨ahead', behind', level', -⟩ :=
    (step_serves prio reach holds h).in_turn holds (prio p inside) level left
  rw [level']
  exact List.mem_append_right _ List.mem_cons_self

/-- The run lemma. -/
theorem run_busy (prio : ∀ p < cfg.numProcesses, cfg.prio p < maxPrio) (pos : 1 ≤ cfg.timeSlot)
    (reach : Reach step (init cfg) m) (inside : p < cfg.numProcesses)
    (waiting : p ∈ m.os.sched.level (cfg.prio p))
    (runs : run (recorded step taken) (m, []) as = some (m', record)) (waits : p ∉ record) :
    ∃ since, m'.Busy m.timer.time m.turnsLeft record since := by
  obtain ⟨first, through⟩ := reach
  obtain ⟨past, recorded_runs, con⟩ := run_conserving through
  obtain ⟨past', recorded_runs', -, charted⟩ := run_charted through
  rw [recorded_runs] at recorded_runs'
  obtain rfl : past = past' := (Prod.mk.inj (Option.some.inj recorded_runs')).2
  have reach : Reach step (init cfg) m := ⟨first, through⟩
  have earlier : ∀ t ∈ past, t.slot ≤ m.timer.time := fun t turn => (charted.inside t turn).2
  have both := run_beside_record
    (P := fun n record => Reach step (init cfg) n ∧ (p ∉ record →
      p ∈ n.os.sched.level (cfg.prio p) ∧
        ∃ since, n.Conserving (since ++ past) ∧ n.Busy m.timer.time m.turnsLeft record since))
    (fun n a n' record ⟨reach, so_far⟩ h => by
      refine ⟨reach.tail h, fun waits => ?_⟩
      obtain ⟨left, waits⟩ := not_or.mp (mt List.mem_append.mpr waits)
      obtain ⟨waiting, since, con, busy⟩ := so_far waits
      have waiting' := step_waits prio reach inside waiting h left
      have some_wait : n'.os.waits ≠ 0 := (Sched.waiting_pos (prio p inside) waiting').ne'
      obtain ⟨marks, on⟩ := reach_onSchedule reach
      have co := reach_coupled reach
      have inStep := reach_inStep reach
      refine ⟨waiting', n.turns a n' ++ since, ?_, ?_⟩
      · rw [List.append_assoc]
        exact con.step co inStep on h
      · exact busy.step co inStep con earlier (by omega) (reach_onSlice pos reach) h some_wait)
    runs ⟨reach, fun _ => ⟨waiting, [], con, .init m⟩⟩
  obtain ⟨-, since, -, busy⟩ := both.2 waits
  exact ⟨since, busy⟩

theorem turnsLeft_le (pos : 1 ≤ cfg.timeSlot) (reach : Reach step (init cfg) m) :
    m.turnsLeft ≤ cfg.timeSlot.toNat * cfg.numCpus := by
  have each : ∀ c ∈ Finset.univ,
      (m.os.cpu c).turnsLeft cfg.timeSlot.toNat ≤ cfg.timeSlot.toNat := by
    intro c _
    obtain ⟨marks, on⟩ := reach_onSlice pos reach c
    exact on.turnsLeft_le
  refine (Finset.sum_le_sum each).trans_eq ?_
  rw [Finset.sum_const_nat fun _ _ => rfl, Finset.card_univ, Fintype.card_fin, Nat.mul_comm]

/-- How long a process waits, whatever the order of the steps: the slots that go by from one
boundary to another, on all CPUs, are no more than a slice for each CPU, for each process of its
prio and priority that was ahead of it, and for each process that goes before it by prio or
priority and is taken meanwhile. -/
theorem waiting_bound (prio : ∀ p < cfg.numProcesses, cfg.prio p < maxPrio)
    (pos : 1 ≤ cfg.timeSlot) (reach : Reach step (init cfg) m) (inside : p < cfg.numProcesses)
    {ahead behind : List Nat} (level : m.os.sched.level (cfg.prio p) = ahead ++ p :: behind)
    (runs : run (recorded step taken) (m, []) as = some (m', record)) (waits : p ∉ record) :
    (m'.timer.currentTime - m.timer.currentTime - 1) * cfg.numCpus ≤
      cfg.timeSlot.toNat * (cfg.numCpus +
        (ahead.countP fun q => cfg.priority q = cfg.priority p) +
        record.countP (Sched.Better cfg.prio cfg.priority · p)) := by
  obtain ⟨pool, holds⟩ := reach_holds prio reach
  obtain ⟨ahead', -, -, none_worse, first⟩ :=
    (run_serves prio reach holds runs).in_turn holds (prio p inside) level (by simpa using waits)
  obtain ⟨since, busy⟩ := run_busy prio pos reach inside (by simp [level]) runs waits
  have tied : (record.countP fun q => ¬ Sched.Better cfg.prio cfg.priority q p) ≤
      ahead.countP fun q => cfg.priority q = cfg.priority p := by
    have same : ∀ q ∈ record, ¬ Sched.Better cfg.prio cfg.priority q p →
        cfg.prio q = cfg.prio p ∧ cfg.priority q = cfg.priority p := fun q taken not_better =>
      Sched.incompRel_better.mp ⟨none_worse q (List.mem_reverse.mpr taken), not_better⟩
    have lengths := congrArg List.length first
    rw [List.length_append, ← List.countP_eq_length_filter, ← List.countP_eq_length_filter,
      ← List.countP_eq_length_filter, List.countP_reverse] at lengths
    calc (record.countP fun q => ¬ Sched.Better cfg.prio cfg.priority q p)
        ≤ record.countP fun q => cfg.prio q = cfg.prio p ∧ cfg.priority q = cfg.priority p :=
          List.countP_mono_left fun q taken not_better =>
            decide_eq_true (same q taken (of_decide_eq_true not_better))
      _ ≤ _ := Nat.le.intro lengths
  have taken : record.length =
      record.countP (Sched.Better cfg.prio cfg.priority · p) +
        record.countP fun q => ¬ Sched.Better cfg.prio cfg.priority q p := by
    rw [List.length_eq_countP_add_countP fun q => decide (Sched.Better cfg.prio cfg.priority q p)]
    simp
  have full : ∀ s ∈ Finset.Ioo m.timer.time m'.timer.time, ∀ c, ∃ t ∈ since,
      t.slot = s ∧ t.cpu = c := fun s member c =>
    busy.full s (Finset.mem_Ioo.mp member).1 (Finset.mem_Ioo.mp member).2 c
  have slots := Chart.full_le full
  rw [Nat.card_Ioo, Fintype.card_fin] at slots
  calc (m'.timer.time - m.timer.time - 1) * cfg.numCpus
      ≤ since.length := slots
    _ ≤ m.turnsLeft + cfg.timeSlot.toNat * record.length :=
      (Nat.le_add_right _ _).trans busy.paid
    _ ≤ cfg.timeSlot.toNat * cfg.numCpus + cfg.timeSlot.toNat * record.length :=
      Nat.add_le_add_right (turnsLeft_le pos reach) _
    _ = cfg.timeSlot.toNat * (cfg.numCpus + record.length) := (Nat.mul_add _ _ _).symm
    _ ≤ _ := Nat.mul_le_mul_left _ (by omega)

/-- Four slots at least go by on the one CPU, and there are three slices for them. -/
theorem waiting_bound_trio : ∃ m m' : Machine trio, Reach step (init trio) m ∧
    m.timer.currentTime = 2 ∧ m'.timer.currentTime = 6 ∧
    run (recorded step taken) (m, []) trioRest = some (m', [2, 1]) ∧
    (6 - 2 - 1) * 1 ≤ 2 * (1 + 2 + 0) := by
  obtain ⟨m, through, level, now, ⟨m', record⟩, runs, rfl, now', -⟩ := trio_runs
  have bound := waiting_bound (by decide) (by decide) ⟨_, through⟩ (p := 0) (by decide) level runs
    (by decide)
  rw [now, now'] at bound
  exact ⟨m, m', ⟨_, through⟩, now, now', runs, bound⟩

end Waiting
end Machine
end OsSim
