import OsSim.WorkConserving

/-! How long a process takes. In a slot in which it has no turn, every CPU has one with another
process, or the loader has added one: so its end is bounded by the work there is. -/
namespace OsSim
open Transition

namespace Config

/-- The turns a process takes: one for each instruction, and one where it has none. -/
def demand (cfg : Config) (p : Nat) : Nat := max 1 (cfg.code p).length

/-- The slot by which the process has finished: it may have to wait while the processes after it
are added, and while all CPUs share the turns of the others. -/
def deadline (cfg : Config) (p : Nat) : Nat :=
  cfg.slot p + cfg.demand p + (cfg.numProcesses - p) +
    (∑ q ∈ (Finset.range cfg.numProcesses).erase p, cfg.demand q) / cfg.numCpus

/-- No level has more processes than its queue has slots. -/
def Roomy (cfg : Config) : Prop :=
  ∀ l < maxPrio, ((Finset.range cfg.numProcesses).filter fun p => cfg.prio p = l).card ≤
    maxQueueSize

instance : DecidablePred Roomy := fun _ => inferInstanceAs (Decidable (∀ l < maxPrio, _ ≤ _))

end Config

theorem CpuLoc.Around.after {k : TimerCall} {loc loc' : CpuLoc} (around : loc.Around)
    (after : loc.after k = some loc') : loc'.Around := by
  rcases around with rfl | rfl | rfl <;> cases k <;> cases after
  · exact .inr (.inr rfl)
  · exact .inl rfl

namespace Os
variable {cfg : Config} {s s' : Os cfg} {c : Fin cfg.numCpus} {p : Nat}

theorem Writes.finished (w : Writes s s') (finished : s.Finished p) : s'.Finished p := by
  obtain ⟨c, reported⟩ := finished
  cases w with
  | silent log => exact ⟨c, log ▸ reported⟩
  | event e log | executed _ _ _ log => exact ⟨c, log ▸ List.mem_cons_of_mem _ reported⟩

section Roomy
variable {st : Nat → Stage cfg.numCpus} {now : Nat} {a : OsAction cfg.numCpus}

/-- A process that is about to be enqueued does not wait yet. -/
theorem Tracks.enqueued_away (t : Tracks st s) (enq : s.enqueues a = some p) :
    st p ≠ .waiting ∧ p < cfg.numProcesses := by
  match a with
  | .work (.cpu c) =>
      obtain ⟨⟨here, -⟩, has⟩ := Option.ite_none_right_eq_some.mp enq
      have holds : (s.cpu c).held = some p := by
        rw [Cpu.held_eq (by rw [here]; nofun) (by rw [here]; nofun)]
        exact (Option.filter_eq_some_iff.mp has).1
      have place := (t.held c p).mp holds
      refine ⟨by rw [place]; nofun, lt_of_not_ge fun late => ?_⟩
      rw [(t.unborn p).mpr (t.added.trans late)] at place
      cases place
  | .work .loader =>
      obtain ⟨here, same⟩ := Option.ite_none_right_eq_some.mp enq
      obtain rfl := Option.some.inj same
      exact ⟨by rw [(t.unborn _).mpr le_rfl]; nofun, t.ready here⟩
  | .timer _ _ => cases enq

/-- The processes that wait at its level and the process itself are different ones. -/
theorem Tracks.has_room (t : Tracks st s) (prio : ∀ p < cfg.numProcesses, cfg.prio p < maxPrio)
    (roomy : cfg.Roomy) : s.HasRoom a := by
  rintro p ⟨enq, full⟩
  obtain ⟨away, known⟩ := t.enqueued_away enq
  have waiting := t.waiting (cfg.prio p) (prio p known)
  have alone : p ∉ s.sched.level (cfg.prio p) := fun waits => away ((waiting p).mp waits).1
  have distinct : (p :: s.sched.level (cfg.prio p)).Nodup :=
    List.nodup_cons.mpr ⟨alone, t.nodup _ (prio p known)⟩
  have inside : (p :: s.sched.level (cfg.prio p)).toFinset ⊆
      (Finset.range cfg.numProcesses).filter fun q => cfg.prio q = cfg.prio p := by
    intro q member
    rw [Finset.mem_filter, Finset.mem_range]
    rcases List.mem_cons.mp (List.mem_toFinset.mp member) with rfl | waits
    · exact ⟨known, rfl⟩
    · obtain ⟨place, level⟩ := (waiting q).mp waits
      refine ⟨lt_of_not_ge fun late => ?_, level⟩
      rw [(t.unborn q).mpr (t.added.trans late)] at place
      cases place
  have few := (Finset.card_le_card inside).trans (roomy _ (prio p known))
  rw [List.toFinset_card_of_nodup distinct, List.length_cons] at few
  exact absurd few (Nat.not_le_of_lt (Nat.lt_succ_of_le full))

/-- A configuration with no more processes of a priority than the queue of its level holds loses
none of them, in any interleaving of the threads. -/
theorem roomy_none_lost (prio : ∀ p < cfg.numProcesses, cfg.prio p < maxPrio)
    (roomy : cfg.Roomy) (reach : Reach free (Os.init cfg) s) : s.NoneLost := by
  have both := reach.invariant (P := fun s => (∃ st, Tracks st s) ∧ s.NoneLost)
    (fun s a s' ⟨⟨st, t⟩, kept⟩ h =>
      ⟨(t.step h).imp fun _ moved => moved.1,
        (t.noneLost_step prio kept h).mpr (t.has_room prio roomy)⟩)
    ⟨⟨_, .init⟩, fun p added => absurd added (Nat.not_lt_zero p)⟩
  exact both.2

end Roomy

/-- A CPU holds the process where it may stand after a turn. -/
def Around (s : Os cfg) (p : Nat) : Prop := ∃ c, (s.cpu c).held = some p ∧ (s.cpu c).loc.Around

end Os

namespace Machine
variable {cfg : Config} {m m' : Machine cfg}

def turnCount (past : List (Turn cfg.numCpus)) (p : Nat) : Nat := past.countP fun t => t.proc = p

/-- The turns so far against what the processes take. One that waits, or that a CPU is about to
run, has turns left. -/
structure Spent (m : Machine cfg) (past : List (Turn cfg.numCpus)) : Prop where
  known : ∀ t ∈ past, t.proc ∈ Finset.range cfg.numProcesses
  within : ∀ p, turnCount past p ≤ cfg.demand p
  more : ∀ p, ¬ m.os.Finished p → ¬ m.os.Around p → turnCount past p < cfg.demand p
  exact : ∀ p, cfg.code p ≠ [] → turnCount past p = m.os.pc p

theorem Spent.init (cfg : Config) : (init cfg).Spent [] where
  known := List.forall_mem_nil _
  within _ := Nat.zero_le _
  more _ _ _ := le_max_left 1 _
  exact _ _ := rfl

/-- The slots that are over: each process that was due before one of them has finished, or had a
turn in it, or all CPUs had one, or the loader added a process. -/
def Served (m : Machine cfg) (past : List (Turn cfg.numCpus)) : Prop :=
  ∀ k < m.timer.time, ∀ p < cfg.numProcesses, cfg.slot p < k →
    m.os.Finished p ∨ (∃ t ∈ past, t.slot = k ∧ t.proc = p) ∨
      (∀ c, ∃ t ∈ past, t.slot = k ∧ t.cpu = c) ∨ ∃ q < cfg.numProcesses, cfg.slot q = k

section Steps
variable {past : List (Turn cfg.numCpus)} {os : Os cfg} {timer : Timer (Thread cfg.numCpus)}
  {c : Fin cfg.numCpus} {p : Nat}

/-- A process whose slot is over has been added. -/
theorem OnSchedule.added (co : m.Coupled) {marks : List LdMark} (on : m.OnSchedule marks)
    (inside : p < cfg.numProcesses) (due : cfg.slot p < m.timer.time) : p < m.os.ld.i := by
  by_cases gone : m.os.ld.loc = .detached
  · have onTime := on.onTime
    rw [Loader.OnTime, gone] at onTime
    exact onTime.1 ▸ inside
  · exact on.onTime.added inside (due.trans_le (co.sync.time_le_calls (on.attached gone)))

theorem finished_step (co : m.Coupled) {a : MachineAction cfg.numCpus} (h : m.step a = some m')
    (finished : m.os.Finished p) : m'.os.Finished p := by
  obtain ⟨st, t⟩ := co.tracked
  cases step_move h with
  | alone => exact finished
  | work moved | call _ moved | ret _ _ moved | detach _ moved =>
      exact (t.writes moved).finished finished

/-- A step without a turn. -/
theorem Spent.quiet (spent : m.Spent past) (pc : m'.os.pc = m.os.pc)
    (finished : ∀ p, m.os.Finished p → m'.os.Finished p)
    (around : ∀ p, m.os.Around p → ¬ m'.os.Finished p → ¬ m'.os.Around p →
      turnCount past p < cfg.demand p) : m'.Spent past where
  known := spent.known
  within := spent.within
  more p unfinished off := by
    by_cases before : m.os.Around p
    · exact around p before unfinished off
    · exact spent.more p (fun ended => unfinished (finished p ended)) before
  exact := pc ▸ spent.exact

/-- A process that has not come to the end of its code has turns left. -/
theorem Spent.left (spent : m.Spent past) (order : m.os.InOrder)
    (more : m.os.pc p ≠ (cfg.code p).length) : turnCount past p < cfg.demand p := by
  have less : m.os.pc p < (cfg.code p).length := lt_of_le_of_ne (order p).2 more
  rw [spent.exact p (List.length_pos_iff.mp (Nat.zero_lt_of_lt less))]
  exact less.trans_le (le_max_right _ _)

/-- A turn, which the process had left. -/
theorem Spent.run (co : m.Coupled) (spent : m.Spent past) (here : (m.os.cpu c).loc = .running)
    (proc : (m.os.cpu c).proc = some p) (u : Cpu) (due : u.loc = .slotDue) (has : u.proc = some p)
    (ins : Option Inst) :
    Spent ⟨(m.os.run c p).setCpu c u, m.timer⟩ (⟨m.timer.time, c, p, ins⟩ :: past) := by
  obtain ⟨st, t⟩ := co.tracked
  have holds : (m.os.cpu c).held = some p := by
    rw [Cpu.held_eq (by rw [here]; nofun) (by rw [here]; nofun), proc]
  have holds' : u.held = some p := by
    rw [Cpu.held_eq (by rw [due]; nofun) (by rw [due]; nofun), has]
  have left : turnCount past p < cfg.demand p := by
    refine spent.more p (t.not_finished (by rw [here]; nofun) (by rw [here]; nofun) proc) ?_
    rintro ⟨d, held, around⟩
    rw [t.exclusive.cpus d c p held holds, here] at around
    rcases around with eq | eq | eq <;> cases eq
  obtain ⟨-, cpu, -, -, -⟩ := m.os.run_frame c p
  have writes := t.run_writes here proc u
  have count : ∀ q, turnCount (⟨m.timer.time, c, p, ins⟩ :: past) q =
      turnCount past q + if p = q then 1 else 0 := by
    intro q
    simp only [turnCount, List.countP_cons, decide_eq_true_eq]
  refine ⟨?_, fun q => ?_, fun q unfinished off => ?_, fun q some_code => ?_⟩
  · refine List.forall_mem_cons.mpr ⟨Finset.mem_range.mpr ?_, spent.known⟩
    exact (co.held_added holds).trans_le t.added
  · rw [count]
    split
    · rename_i own
      exact own ▸ left
    · exact spent.within q
  · rw [count, if_neg]
    · refine spent.more q (fun ended => unfinished (writes.finished ended)) ?_
      rintro ⟨d, held, around⟩
      by_cases own : d = c
      · rw [own, here] at around
        rcases around with eq | eq | eq <;> cases eq
      · exact off ⟨d, by
          dsimp only
          rw [Os.setCpu_cpu, if_neg own, cpu]
          exact ⟨held, around⟩⟩
    · rintro rfl
      exact off ⟨c, by
        dsimp only
        rw [Os.setCpu_same]
        exact ⟨holds', .inr (.inl due)⟩⟩
  · rw [count, spent.exact q some_code]
    dsimp only [Os.setCpu_pc]
    unfold Os.run
    by_cases own : p = q
    · subst own
      rw [if_pos rfl]
      have fetched : m.os.pc p < (cfg.code p).length := by
        rw [spent.exact p some_code] at left
        exact left.trans_eq (max_eq_right (List.length_pos_iff.mpr some_code))
      rw [List.getElem?_eq_getElem fetched]
      exact (Function.update_self p _ m.os.pc).symm
    · rw [if_neg own]
      split
      · rfl
      · exact (Function.update_of_ne (Ne.symm own) _ m.os.pc).symm

/-- A CPU's own step without a turn. Off its place after a turn it goes with a process that it
has found to have code left. -/
theorem Spent.cpuMove (co : m.Coupled) (order : m.os.InOrder) (spent : m.Spent past)
    (move : Os.CpuMove m.os c os) : Spent ⟨os, m.timer⟩
      (m.turns (.work (.cpu c)) ⟨os, m.timer⟩ ++ past) := by
  obtain ⟨st, t⟩ := co.tracked
  have others := move.frame.2.2
  have same : os.pc = m.os.pc → (∀ p, m.os.Finished p → os.Finished p) →
      (∀ p, (m.os.cpu c).loc = .top → (m.os.cpu c).proc = some p → ¬ os.Finished p →
        turnCount past p < cfg.demand p) → Spent ⟨os, m.timer⟩ past := by
    intro pc finished left
    refine spent.quiet pc finished fun p ⟨d, held, around⟩ unfinished off => ?_
    by_cases own : d = c
    · subst own
      have top : (m.os.cpu d).loc = .top :=
        around.resolve_right fun out => out.elim move.loc_ne move.loc.1
      rw [Cpu.held_eq (by simp [top]) (by simp [top])] at held
      exact left p top held unfinished
    · exact absurd ⟨d, by dsimp only; rw [others d own]; exact ⟨held, around⟩⟩ off
  have noted : ∀ e, os.log = e :: m.os.log → ∀ p, m.os.Finished p → os.Finished p :=
    fun e log p finished => finished.imp fun d reported => log ▸ List.mem_cons_of_mem _ reported
  have away : ∀ {loc : CpuLoc}, (m.os.cpu c).loc = loc → loc ≠ .top →
      ∀ p, (m.os.cpu c).loc = .top → (m.os.cpu c).proc = some p → ¬ os.Finished p →
        turnCount past p < cfg.demand p :=
    fun here other p top => absurd (here.symm.trans top) other
  have no_turn : (m.os.cpu c).loc ≠ .running →
      m.turns (.work (.cpu c)) ⟨os, m.timer⟩ = [] := fun other => if_neg other
  cases move with
  | @run p here proc =>
      rw [turns, if_pos here, proc]
      exact spent.run co here proc _ rfl rfl _
  | load here none =>
      rw [no_turn (by simp [here])]
      exact same rfl (fun _ => id) fun p _ has => by cases none.symm.trans has
  | @report q here proc =>
      rw [no_turn (by simp [here])]
      refine same rfl (noted _ rfl) fun p _ has unfinished => absurd ?_ unfinished
      exact ⟨c, Option.some.inj (proc.symm.trans has) ▸ List.mem_cons_self⟩
  | expire here proc more =>
      rw [no_turn (by simp [here])]
      refine same rfl (noted _ rfl) fun p _ has _ => ?_
      exact Option.some.inj (proc.symm.trans has) ▸ spent.left order more
  | resume here proc more =>
      rw [no_turn (by simp [here])]
      refine same rfl (fun _ => id) fun p _ has _ => ?_
      exact Option.some.inj (proc.symm.trans has) ▸ spent.left order more
  | afterFinish here | afterPut here | skip here | proceed here =>
      rw [no_turn (by simp [here])]
      exact same rfl (fun _ => id) (away here (by simp))
  | stop here | dispatch here =>
      rw [no_turn (by simp [here])]
      exact same rfl (noted _ rfl) (away here (by simp))

/-- The step lemma for the turns. -/
theorem Spent.step (co : m.Coupled) (order : m.os.InOrder) (spent : m.Spent past)
    {a : MachineAction cfg.numCpus} (h : m.step a = some m') :
    m'.Spent (m.turns a m' ++ past) := by
  have finished := fun p => finished_step co h (p := p)
  have stays : (∀ p, m.os.Around p → m'.os.Around p) → m'.os.pc = m.os.pc → m'.Spent past :=
    fun around pc => spent.quiet pc finished fun p before _ off => absurd (around p before) off
  cases step_move h with
  | alone => exact stays (fun _ => id) rfl
  | work moved =>
      cases Os.step_move moved with
      | cpu move => exact spent.cpuMove co order move
      | loader move => cases move <;> exact stays (fun _ => id) rfl
  | call _ moved | ret _ _ moved | detach _ moved =>
      cases Os.step_move moved with
      | ldTimer => exact stays (fun _ => id) rfl
      | @cpuTimer _ loc c after =>
          refine stays ?_ rfl
          rintro p ⟨d, held, around⟩
          refine ⟨d, ?_⟩
          dsimp only
          rw [Os.setCpu_cpu]
          split
          · rename_i own
            subst own
            exact ⟨(CpuLoc.after_held after _ _ _).trans held, around.after after⟩
          · exact ⟨held, around⟩

/-- The slot that ends, where no process has been lost. -/
theorem Conserving.served (co : m.Coupled) (inStep : m.InStep) {marks : List LdMark}
    (on : m.OnSchedule marks) (con : m.Conserving past)
    (prio : ∀ p < cfg.numProcesses, cfg.prio p < maxPrio) (kept : m.os.NoneLost)
    (here : m.timer.loc = .examine []) (inside : p < cfg.numProcesses)
    (due : cfg.slot p < m.timer.time) :
    m.os.Finished p ∨ (∃ t ∈ past, t.slot = m.timer.time ∧ t.proc = p) ∨
      (∀ c, ∃ t ∈ past, t.slot = m.timer.time ∧ t.cpu = c) ∨
        ∃ q < cfg.numProcesses, cfg.slot q = m.timer.time := by
  obtain ⟨st, tracks⟩ := co.tracked
  have added := on.added co inside due
  rcases Classical.em (m.os.Finished p) with finished | unfinished
  · exact .inl finished
  rcases kept p added unfinished with waits | ⟨c, holds⟩
  · by_cases each : ∀ c, ∃ t ∈ past, t.slot = m.timer.time ∧ t.cpu = c
    · exact .inr (.inr (.inl each))
    · obtain ⟨c, idle⟩ := not_forall.mp each
      have few := (con.slot_end co inStep here c).resolve_left idle
      have some := Sched.waiting_pos (prio p inside) waits
      obtain ⟨q, member⟩ := Finset.card_pos.mp (some.trans_le few)
      obtain ⟨early, now⟩ := Finset.mem_filter.mp member
      exact .inr (.inr (.inr ⟨q, (Finset.mem_range.mp early).trans_le tracks.added, now⟩))
  · rcases slot_over co inStep here c with ⟨at_loc, calls⟩ | gone
    · rw [Cpu.held_eq (by rw [at_loc]; nofun) (by rw [at_loc]; nofun)] at holds
      obtain ⟨t, turn, now, -, own⟩ := con.ran c p holds (.inr ⟨at_loc, calls⟩)
      exact .inr (.inl ⟨t, turn, now, own⟩)
    · rw [Cpu.held_eq (by rw [gone]; nofun) (by rw [gone]; nofun),
        (con.left c fun inLoop => inLoop.2 gone).1] at holds
      cases holds

/-- A process that is lost stays lost: none has been where none is now. -/
theorem noneLost_before (co : m.Coupled) (prio : ∀ p < cfg.numProcesses, cfg.prio p < maxPrio)
    {a : MachineAction cfg.numCpus} (h : m.step a = some m') (kept : m'.os.NoneLost) :
    m.os.NoneLost := by
  obtain ⟨st, t⟩ := co.tracked
  have before : ∀ {now b}, m.os.step now b = some m'.os → m.os.NoneLost := by
    intro now b moved
    obtain ⟨st', t', lost⟩ := t.step moved
    refine (t.noneLost_iff prio).mpr fun p gone => ?_
    exact (t'.noneLost_iff prio).mp kept p ((lost p).mpr (.inl gone))
  cases step_move h with
  | alone => exact kept
  | work moved | call _ moved | ret _ _ moved | detach _ moved => exact before moved

/-- The step lemma for the slots that are over. -/
theorem Served.step (co : m.Coupled) (inStep : m.InStep) {marks : List LdMark}
    (on : m.OnSchedule marks) (con : m.Conserving past)
    (prio : ∀ p < cfg.numProcesses, cfg.prio p < maxPrio) (kept : m.os.NoneLost)
    (served : m.Served past) {a : MachineAction cfg.numCpus} (h : m.step a = some m') :
    m'.Served (m.turns a m' ++ past) := by
  have grows : ∀ {k p}, (m.os.Finished p ∨ (∃ t ∈ past, t.slot = k ∧ t.proc = p) ∨
      (∀ c, ∃ t ∈ past, t.slot = k ∧ t.cpu = c) ∨ ∃ q < cfg.numProcesses, cfg.slot q = k) →
      m'.os.Finished p ∨ (∃ t ∈ m.turns a m' ++ past, t.slot = k ∧ t.proc = p) ∨
      (∀ c, ∃ t ∈ m.turns a m' ++ past, t.slot = k ∧ t.cpu = c) ∨
        ∃ q < cfg.numProcesses, cfg.slot q = k := by
    intro k p
    have turn : ∀ {P : Turn cfg.numCpus → Prop}, (∃ t ∈ past, P t) →
        ∃ t ∈ m.turns a m' ++ past, P t :=
      fun ⟨t, turn, is⟩ => ⟨t, List.mem_append_right _ turn, is⟩
    exact Or.imp (finished_step co h) (Or.imp turn (Or.imp_left fun each c => turn (each c)))
  intro k passed p inside due
  apply grows
  by_cases earlier : k < m.timer.time
  · exact served k earlier p inside due
  · obtain ⟨here, rfl⟩ : m.timer.loc = .examine [] ∧ k = m.timer.time := by
      cases step_move h with
      | work => exact absurd passed earlier
      | alone ticked | call ticked | ret ticked | detach ticked =>
          rcases Timer.step_clock ticked with still | ⟨-, here, rfl⟩
          · exact absurd (still ▸ passed) earlier
          · exact ⟨here, le_antisymm (Nat.lt_succ_iff.mp passed) (not_lt.mp earlier)⟩
    exact con.served co inStep on prio kept here inside due

end Steps

/-- The run lemma: every reachable state has a chart that accounts for its slots and turns. -/
theorem reach_served (prio : ∀ p < cfg.numProcesses, cfg.prio p < maxPrio)
    (reach : Reach step (init cfg) m) :
    ∃ past, m.Spent past ∧ (m.os.NoneLost → m.Served past) := by
  obtain ⟨as, runs⟩ := reach
  obtain ⟨past, -, -, -, spent, served⟩ := run_beside
    (P := fun m past => Reach step (init cfg) m ∧ m.Conserving past ∧ m.Spent past ∧
      (m.os.NoneLost → m.Served past))
    (fun m a m' past ⟨reach, con, spent, served⟩ h => by
      have co := reach_coupled reach
      have inStep := reach_inStep reach
      obtain ⟨marks, on⟩ := reach_onSchedule reach
      have order := (Os.reach_inOrder (reach_os reach)).1
      refine ⟨reach.tail h, con.step co inStep on h, spent.step co order h, fun kept => ?_⟩
      have before := noneLost_before co prio h kept
      exact Served.step co inStep on con prio before (served before) h)
    runs ⟨.refl _, .init cfg, .init cfg, fun _ k passed => absurd passed (Nat.not_lt_zero k)⟩
  exact ⟨past, spent, served⟩

/-- Past its deadline a process has finished. -/
theorem finished_of_late (cpus : 0 < cfg.numCpus)
    (prio : ∀ p < cfg.numProcesses, cfg.prio p < maxPrio) (reach : Reach step (init cfg) m)
    (kept : m.os.NoneLost) {p : Nat} (inside : p < cfg.numProcesses)
    (late : cfg.deadline p < m.timer.time) : m.os.Finished p := by
  obtain ⟨past, spent, served⟩ := reach_served prio reach
  by_contra unfinished
  let later := (Finset.Ioo p cfg.numProcesses).image cfg.slot
  have covered : ∀ s, cfg.slot p + 1 ≤ s → s < m.timer.time →
      (∃ t ∈ past, t.slot = s ∧ t.proc = p) ∨
        (∀ c, ∃ t ∈ past, t.slot = s ∧ t.cpu = c) ∨ s ∈ later := by
    intro s after passed
    refine ((served kept s passed p inside after).resolve_left unfinished).imp_right
      (Or.imp_right fun ⟨q, known, at_slot⟩ => ?_)
    have next : p < q := Earliest.slot_strictMono.lt_iff_lt.mp (at_slot ▸ after)
    exact Finset.mem_image.mpr ⟨q, Finset.mem_Ioo.mpr ⟨next, known⟩, at_slot⟩
  have others : (past.filter fun t => t.proc ≠ p).length ≤
      ∑ q ∈ (Finset.range cfg.numProcesses).erase p, cfg.demand q := by
    refine (Chart.length_le_sum_count fun t turn => ?_ : _ ≤ ∑ q ∈ (Finset.range _).erase p,
      List.countP (fun t => Turn.proc t = q) _).trans (Finset.sum_le_sum fun q _ => ?_)
    · obtain ⟨turn, other⟩ := List.mem_filter.mp turn
      exact Finset.mem_erase.mpr ⟨of_decide_eq_true other, spent.known t turn⟩
    · exact (List.filter_sublist.countP_le).trans (spent.within q)
  have stretch := (Chart.stretch_le covered).trans others
  have own := spent.within p
  have few : later.card ≤ cfg.numProcesses - p - 1 :=
    Finset.card_image_le.trans_eq (Nat.card_Ioo _ _)
  rw [Fintype.card_fin, ← Nat.le_div_iff_mul_le cpus] at stretch
  unfold Config.deadline at late
  unfold turnCount at own
  omega

/-- And it is past its deadline after so many steps. -/
theorem finished_of_long (cpus : 0 < cfg.numCpus)
    (prio : ∀ p < cfg.numProcesses, cfg.prio p < maxPrio) {as : List (MachineAction cfg.numCpus)}
    (runs : run step (init cfg) as = some m) (own : ∀ a ∈ as, Own a) (kept : m.os.NoneLost)
    {p : Nat} (inside : p < cfg.numProcesses)
    (many : (cfg.deadline p + 1) * slotSteps cfg ≤ as.length) : m.os.Finished p := by
  have short := own_length_lt (.refl _) runs own
  have started : (init cfg).timer.time = 0 := rfl
  rw [started, Nat.zero_mul, Nat.add_zero] at short
  have late := Nat.lt_of_mul_lt_mul_right (many.trans_lt short)
  exact finished_of_late cpus prio ⟨as, runs⟩ kept inside (Nat.lt_of_succ_lt_succ late)

/-- When the timer has ended, every process has finished. -/
theorem finished_of_ended (cpus : 0 < cfg.numCpus)
    (prio : ∀ p < cfg.numProcesses, cfg.prio p < maxPrio) (reach : Reach step (init cfg) m)
    (kept : m.os.NoneLost) (ended : m.timer.loc = .exited) {p : Nat}
    (inside : p < cfg.numProcesses) : m.os.Finished p := by
  obtain ⟨seen, w⟩ := reach_watch cpus reach
  have gone : ∀ c, (m.os.cpu c).loc = .detached := fun c =>
    (exited_detached reach ended (.cpu c)).elim (fun eq => Sum.inl.inj eq) nofun
  have stopped : ∀ c, ¬ (m.os.cpu c).loc.InLoop := fun c inLoop => inLoop.2 (gone c)
  have added : m.os.ld.i = cfg.numProcesses :=
    le_antisymm (added_le reach) ((w.stopped ⟨0, cpus⟩ (stopped _)).1.ge.trans (w.seen_le _))
  have empty := w.settled added fun c => .inl (stopped c)
  by_contra unfinished
  rcases kept p (inside.trans_eq added.symm) unfinished with waits | ⟨c, holds⟩
  · rw [empty _ (prio p inside)] at waits
    cases waits
  · rw [Cpu.held_eq (by rw [gone]; nofun) (by rw [gone]; nofun), (w.stopped c (stopped c)).2]
      at holds
    cases holds

/-- However the CPUs and the loader take their turns, and as long as no process is lost: past its
deadline a process has been reported finished, and in a run without spurious wake-ups it is past
its deadline after so many steps. -/
theorem response_bound (cpus : 0 < cfg.numCpus)
    (prio : ∀ p < cfg.numProcesses, cfg.prio p < maxPrio) {as : List (MachineAction cfg.numCpus)}
    (runs : run step (init cfg) as = some m) (kept : m.os.NoneLost) :
    ∀ p < cfg.numProcesses, (cfg.deadline p < m.timer.currentTime → m.os.Finished p) ∧
      ((∀ a ∈ as, Own a) → (cfg.deadline p + 1) * slotSteps cfg ≤ as.length →
        m.os.Finished p) := by
  exact fun p inside => ⟨finished_of_late cpus prio ⟨as, runs⟩ kept inside,
    fun own many => finished_of_long cpus prio runs own kept inside many⟩

/-- One process of one instruction; its CPU misses the moment to leave and goes on idle. -/
def soloIdle : List (MachineAction solo.numCpus) :=
  let round : List (MachineAction solo.numCpus) := List.replicate 7 (.timer .timer)
  let idle : List (MachineAction solo.numCpus) := List.flatten
    [[.work (.cpu 0), .timer (.nextSlot (.cpu 0))], round, [.timer (.test (.cpu 0))]]
  List.flatten
    [List.replicate 2 (.work .loader), List.replicate 3 (.work (.cpu 0)),
      [.timer (.nextSlot .loader), .timer (.nextSlot (.cpu 0))], round,
      [.timer (.test .loader), .timer (.test (.cpu 0))],
      List.replicate 3 (.work (.cpu 0)),
      [.work .loader, .timer (.detach .loader), .timer (.nextSlot (.cpu 0))], round,
      [.timer (.test (.cpu 0))], idle, idle, idle, idle, idle, idle]

theorem response_bound_solo : solo.deadline 0 = 2 ∧ slotSteps solo = 28 ∧ soloIdle.length = 90 ∧
    ∃ m : Machine solo, run step (init solo) soloIdle = some m ∧ m.os.Finished 0 := by
  have own : ∀ a ∈ soloIdle, Own a := by decide
  obtain ⟨m, through, kept⟩ : ∃ m ∈ run step (init solo) soloIdle, m.os.NoneLost := by
    decide +kernel
  have each := response_bound (by decide) (by decide) through kept 0 Nat.one_pos
  exact ⟨by decide +kernel, rfl, by decide, m, through, each.2 own (by decide +kernel)⟩

end Machine
end OsSim
