import Mathlib.Algebra.Order.BigOperators.Group.Finset
import OsSim.Admission
import OsSim.Chart
import OsSim.Ownership

/-! Which CPU runs which process in which slot. The barrier keeps a CPU in its slot until it
has called next_slot, and a process stays with its CPU until that call has returned: so neither
gets a second turn in a slot, although a process may move from one CPU to another. -/
namespace OsSim
open Transition

/-- A call of run: the slot on the clock, the CPU, its process, the instruction at pc. -/
structure Turn (n : Nat) where
  slot : Nat
  cpu : Fin n
  proc : Nat
  ins : Option Inst
  deriving DecidableEq

/-- The instructions that the turns of a process have executed, oldest first. -/
def Turn.executed {n : Nat} (p : Nat) (past : List (Turn n)) : List Inst :=
  ((past.filter fun t => t.proc = p).filterMap Turn.ins).reverse

theorem Turn.executed_cons {n : Nat} (p : Nat) (t : Turn n) (past : List (Turn n)) :
    Turn.executed p (t :: past) =
      Turn.executed p past ++ if t.proc = p then t.ins.toList else [] := by
  unfold executed
  by_cases own : t.proc = p
  · rw [if_pos own, List.filter_cons_of_pos (by simp [own])]
    cases ins : t.ins with
    | none => simp [ins]
    | some i => simp [ins]
  · rw [if_neg own, List.filter_cons_of_neg (by simp [own]), List.append_nil]

/-- The clock moves in one section of timer_routine, and nowhere else. -/
theorem Timer.step_clock {ι : Type*} [DecidableEq ι] {D : DevList ι} {s s' : Timer ι}
    {a : TimerAction ι} (h : s.step D a = some s') : s'.time = s.time ∨
      a = .timer ∧ s.loc = .examine [] ∧
        s' = { s with loc := .release D.devs, time := s.time + 1 } := by
  cases step_move h with
  | timer move =>
      cases move with
      | tick here => exact .inr ⟨rfl, here, rfl⟩
      | _ => exact .inl rfl
  | nextSlot | detach => exact .inl (signalEvent_time _ _)
  | _ => exact .inl rfl

theorem Timer.step_still {ι : Type*} [DecidableEq ι] {D : DevList ι} {s s' : Timer ι}
    {a : TimerAction ι} (h : s.step D a = some s') (other : a ≠ .timer) : s'.time = s.time :=
  (step_clock h).resolve_right fun moved => other moved.1

theorem Timer.step_time_le {ι : Type*} [DecidableEq ι] {D : DevList ι} {s s' : Timer ι}
    {a : TimerAction ι} (h : s.step D a = some s') : s.time ≤ s'.time := by
  rcases step_clock h with still | ⟨-, -, rfl⟩
  · exact still.ge
  · exact Nat.le_succ _

theorem Timer.DevMove.calls_le {ι : Type*} {d : ι} {x y : Device} {a : TimerAction ι}
    (move : DevMove d x a y) : x.calls ≤ y.calls := by
  by_cases call : a = .nextSlot d
  · cases move with
    | nextSlot => exact Nat.le_succ _
    | same => exact le_rfl
    | signal => exact (DevMove.signal (d := d) (a := .timer) |>.calls nofun).ge
    | release | test | detach => cases call
  · exact (move.calls call).ge

namespace Os
variable {cfg : Config} {s s' : Os cfg} {c : Fin cfg.numCpus}

theorem CpuMove.outside (move : CpuMove s c s') :
    ¬ s.InTimer (.cpu c) := by
  rintro (inside | inside)
  · exact move.loc.1 inside
  · exact move.loc.2 inside

theorem LdMove.frame_cpu {now : Nat} (move : LdMove now s s') : s'.cpu = s.cpu := by
  cases move <;> rfl

theorem CpuMove.loc_ne (move : CpuMove s c s') :
    (s.cpu c).loc ≠ .slotDue := by
  cases move <;> simp [*]

end Os

namespace Machine
variable {cfg : Config} {m m' : Machine cfg}

/-- The turn of a step: a CPU calls run on the process it has. -/
def turns (m : Machine cfg) (a : MachineAction cfg.numCpus) (_ : Machine cfg) :
    List (Turn cfg.numCpus) :=
  match a with
  | .work (.cpu c) =>
      if (m.os.cpu c).loc = .running then
        (m.os.cpu c).proc.toList.map fun p =>
          ⟨m.timer.currentTime, c, p, (cfg.code p)[m.os.pc p]?⟩
      else []
  | _ => []

def cpuCalls (m : Machine cfg) (c : Fin cfg.numCpus) : Nat := (m.timer.dev (.cpu c)).calls

/-- The turn is in an earlier slot than the one the CPU is in, or in this one where the CPU has
still to call next_slot for it. -/
def Before (m : Machine cfg) (c : Fin cfg.numCpus) (t : Turn cfg.numCpus) : Prop :=
  if (m.os.cpu c).loc = .slotDue then t.slot ≤ m.cpuCalls c else t.slot < m.cpuCalls c

/-- The processes added so far are those whose slot has come. -/
def Admitted (m : Machine cfg) : Prop := ∀ p < m.os.ld.i, cfg.slot p ≤ m.timer.time

/-- Where the turns so far are: no CPU gets into the slot of one of its turns again, nor does one
that has the process of a turn. -/
structure Placed (m : Machine cfg) (past : List (Turn cfg.numCpus)) : Prop where
  own : ∀ t ∈ past, m.Before t.cpu t
  holder : ∀ t ∈ past, ∀ c, (m.os.cpu c).held = some t.proc → m.Before c t
  left : ∀ t ∈ past, (∀ c, (m.os.cpu c).held ≠ some t.proc) → t.slot < m.timer.time

/-- The chart so far: no CPU and no process has two turns in a slot, none of them is before the
process was added, and the turns of a process have executed its code up to pc. -/
structure Charted (m : Machine cfg) (past : List (Turn cfg.numCpus)) : Prop where
  cpus : Chart.Ordered Turn.slot Turn.cpu past
  procs : Chart.Ordered Turn.slot Turn.proc past
  inside : ∀ t ∈ past, cfg.slot t.proc ≤ t.slot ∧ t.slot ≤ m.timer.time
  executed : ∀ p, Turn.executed p past = (cfg.code p).take (m.os.pc p)

theorem Charted.init (cfg : Config) : (init cfg).Charted [] where
  cpus := .nil
  procs := .nil
  inside := List.forall_mem_nil _
  executed _ := rfl

theorem Placed.init (cfg : Config) : (init cfg).Placed [] where
  own := List.forall_mem_nil _
  holder := List.forall_mem_nil _
  left := List.forall_mem_nil _

section Facts
variable {c : Fin cfg.numCpus} {t : Turn cfg.numCpus}

theorem Before.strict (before : m.Before c t) (away : (m.os.cpu c).loc ≠ .slotDue) :
    t.slot < m.cpuCalls c := by
  rwa [Before, if_neg away] at before

theorem before_of_lt (lt : t.slot < m.cpuCalls c) : m.Before c t := by
  unfold Before
  split
  · exact lt.le
  · exact lt

/-- A CPU outside of timer.c is in the slot on the clock. -/
theorem Coupled.cpuCalls (co : m.Coupled) (out : ¬ m.os.InTimer (.cpu c)) :
    m.cpuCalls c = m.timer.time :=
  (co.sync.working (co.atWork _ out)).1

theorem Coupled.exclusive (co : m.Coupled) : m.os.Exclusive := by
  obtain ⟨st, t⟩ := co.tracked
  exact t.exclusive

theorem Coupled.held_added (co : m.Coupled) {p : Nat} (holds : (m.os.cpu c).held = some p) :
    p < m.os.ld.i := by
  obtain ⟨st, t⟩ := co.tracked
  by_contra late
  rw [t.held, (t.unborn p).mpr (Nat.le_of_not_lt late)] at holds
  cases holds

end Facts

section Steps
variable {past : List (Turn cfg.numCpus)} {os : Os cfg} {timer : Timer (Thread cfg.numCpus)}
  {c : Fin cfg.numCpus}

/-- A step in which no CPU takes or gives up a process. -/
theorem Placed.same (placed : m.Placed past) (held : ∀ c, (m'.os.cpu c).held = (m.os.cpu c).held)
    (before : ∀ c t, m.Before c t → m'.Before c t) (clock : m.timer.time ≤ m'.timer.time) :
    m'.Placed past where
  own t turn := before _ _ (placed.own t turn)
  holder t turn c holds := before _ _ (placed.holder t turn c (held c ▸ holds))
  left t turn free := (placed.left t turn fun c => held c ▸ free c).trans_le clock

/-- A CPU's own step. A process that it takes no CPU had, and one that it gives up it has not run
in this slot. -/
theorem Placed.cpuMove (co : m.Coupled) (co' : Coupled ⟨os, m.timer⟩) (placed : m.Placed past)
    (move : Os.CpuMove m.os c os) : Placed ⟨os, m.timer⟩ past := by
  have others := move.frame.2.2
  have now := co.cpuCalls move.outside
  have before : ∀ t, t.slot < m.cpuCalls c → Before ⟨os, m.timer⟩ c t :=
    fun _ lt => before_of_lt lt
  have same : ∀ d ≠ c, ∀ t, m.Before d t → Before ⟨os, m.timer⟩ d t := by
    intro d other t was
    unfold Before at was ⊢
    rwa [others d other]
  constructor
  · intro t turn
    by_cases mine : t.cpu = c
    · exact mine ▸ before t (mine ▸ (placed.own t turn).strict (mine ▸ move.loc_ne))
    · exact same _ mine t (placed.own t turn)
  · intro t turn d holds
    by_cases mine : d = c
    · subst mine
      by_cases had : (m.os.cpu d).held = some t.proc
      · exact before t ((placed.holder t turn d had).strict move.loc_ne)
      · apply before t
        rw [now]
        apply placed.left t turn
        intro e holds'
        by_cases here : e = d
        · exact had (here ▸ holds')
        · exact here (co'.exclusive.cpus e d t.proc (others e here ▸ holds') holds)
    · exact same d mine t (placed.holder t turn d (others d mine ▸ holds))
  · intro t turn free
    by_cases had : (m.os.cpu c).held = some t.proc
    · exact now ▸ (placed.holder t turn c had).strict move.loc_ne
    · apply placed.left t turn
      intro d
      by_cases mine : d = c
      · exact mine ▸ had
      · exact others d mine ▸ free d

/-- The turn of a call of run joins the chart. -/
theorem Placed.cons (co : m.Coupled) (placed : m.Placed past) {p : Nat}
    (here : (m.os.cpu c).loc = .slotDue) (holds : (m.os.cpu c).held = some p)
    (ins : Option Inst) : m.Placed (⟨m.timer.time, c, p, ins⟩ :: past) := by
  have out : ¬ m.os.InTimer (.cpu c) := by
    rintro (gone | gone) <;> rw [here] at gone <;> cases gone
  have now : m.Before c ⟨m.timer.time, c, p, ins⟩ := by
    rw [Before, if_pos here, co.cpuCalls out]
  constructor
  · intro t turn
    rcases List.mem_cons.mp turn with rfl | turn
    · exact now
    · exact placed.own t turn
  · intro t turn d holds'
    rcases List.mem_cons.mp turn with rfl | turn
    · exact co.exclusive.cpus c d p holds holds' ▸ now
    · exact placed.holder t turn d holds'
  · intro t turn free
    rcases List.mem_cons.mp turn with rfl | turn
    · exact absurd holds (free c)
    · exact placed.left t turn free

/-- A step of timer.c alone. -/
theorem Placed.alone (placed : m.Placed past) {a : TimerAction (Thread cfg.numCpus)}
    (ticked : m.timer.step (devList _) a = some timer) (no_call : ∀ t, a ≠ .nextSlot t) :
    Placed ⟨m.os, timer⟩ past := by
  refine placed.same (fun _ => rfl) (fun c t was => ?_) (Timer.step_time_le ticked)
  have calls : (timer.dev (.cpu c)).calls = m.cpuCalls c :=
    (Timer.step_devMove ticked _).calls (no_call _)
  rwa [Before, cpuCalls, calls]

/-- A call, a return or a detach. The call is what takes a CPU out of its slot. -/
theorem Placed.timerCall (placed : m.Placed past) {a : TimerAction (Thread cfg.numCpus)}
    (ticked : m.timer.step (devList _) a = some timer) {now : Nat} {k : TimerCall}
    {t : Thread cfg.numCpus} (moved : m.os.step now (.timer k t) = some os)
    (only : ∀ u ≠ t, a ≠ .nextSlot u) (called : k = .call → a = .nextSlot t) :
    Placed ⟨os, timer⟩ past := by
  have clock := Timer.step_time_le ticked
  have calls : ∀ d, a ≠ .nextSlot (.cpu d) → (timer.dev (.cpu d)).calls = m.cpuCalls d :=
    fun d other => (Timer.step_devMove ticked _).calls other
  cases Os.step_move moved with
  | @cpuTimer _ loc c after =>
      have other : ∀ d ≠ c, a ≠ .nextSlot (.cpu d) := fun d other =>
        only _ fun same => other (Thread.cpu.inj same)
      refine placed.same (fun d => ?_) (fun d u was => ?_) clock
      · simp only [Os.setCpu_cpu]
        split
        · rename_i here
          subst here
          exact CpuLoc.after_held after _ _ _
        · rfl
      · by_cases here : d = c
        · subst here
          unfold Before at was ⊢
          rw [Os.setCpu_same, cpuCalls]
          -- the slot ends with the call; a return and a detach come after it
          cases k <;> cases at_loc : (m.os.cpu d).loc <;> rw [at_loc] at after was <;> cases after
          · cases called rfl
            rw [Timer.nextSlot_calls ticked]
            exact Nat.lt_succ_of_le was
          · exact was.trans_le (Timer.step_devMove ticked _).calls_le
          · exact was.trans_le (Timer.step_devMove ticked _).calls_le
        · unfold Before at was ⊢
          rwa [Os.setCpu_cpu, if_neg here, cpuCalls, calls d (other d here)]
  | ldTimer =>
      refine placed.same (fun _ => rfl) (fun d u was => ?_) clock
      rwa [Before, cpuCalls, calls d (only _ nofun)]

/-- The step lemma for the places. -/
theorem Placed.step (co : m.Coupled) (co' : m'.Coupled) (placed : m.Placed past)
    {a : MachineAction cfg.numCpus} (h : m.step a = some m') :
    m'.Placed (m.turns a m' ++ past) := by
  cases step_move h with
  | work moved =>
      cases Os.step_move moved with
      | @cpu c _ move =>
          have placed' := placed.cpuMove co co' move
          cases move with
          | @run p here proc =>
              rw [turns, if_pos here, proc]
              exact placed'.cons co' (by simp) (by simp [Cpu.held]) _
          | _ =>
              rw [turns, if_neg (by simp [*])]
              exact placed'
      | loader move =>
          have cpu := move.frame_cpu
          refine placed.same (fun c => by rw [cpu]) (fun c t was => ?_) le_rfl
          rwa [Before, cpu]
  | alone ticked no_call => exact placed.alone ticked no_call
  | call ticked moved =>
      exact placed.timerCall ticked moved (fun u other same => other (by cases same; rfl))
        fun _ => rfl
  | ret ticked _ moved =>
      exact placed.timerCall ticked moved (fun _ _ same => by cases same)
        fun same => by cases same
  | detach ticked moved =>
      exact placed.timerCall ticked moved (fun _ _ same => by cases same)
        fun same => by cases same

theorem Charted.quiet (ch : m.Charted past) (clock : m.timer.time ≤ m'.timer.time)
    (pc : m'.os.pc = m.os.pc) : m'.Charted past where
  cpus := ch.cpus
  procs := ch.procs
  inside t turn := ⟨(ch.inside t turn).1, (ch.inside t turn).2.trans clock⟩
  executed p := pc ▸ ch.executed p

/-- The turn is the first of its CPU, and of its process, in the slot. -/
theorem Charted.run (co : m.Coupled) (placed : m.Placed past) (admitted : m.Admitted)
    (ch : m.Charted past) {p : Nat} (here : (m.os.cpu c).loc = .running)
    (proc : (m.os.cpu c).proc = some p) (u : Cpu) :
    Charted ⟨(m.os.run c p).setCpu c u, m.timer⟩
      (⟨m.timer.time, c, p, (cfg.code p)[m.os.pc p]?⟩ :: past) := by
  have holds : (m.os.cpu c).held = some p := by
    rw [Cpu.held_eq (by rw [here]; nofun) (by rw [here]; nofun), proc]
  have out : ¬ m.os.InTimer (.cpu c) := by
    rintro (gone | gone) <;> rw [here] at gone <;> cases gone
  have now := co.cpuCalls out
  have away : (m.os.cpu c).loc ≠ .slotDue := by
    rw [here]
    nofun
  refine ⟨ch.cpus.cons ?_, ch.procs.cons ?_, ?_, ?_⟩
  · rintro t turn rfl
    exact now ▸ (placed.own t turn).strict away
  · rintro t turn rfl
    exact now ▸ (placed.holder t turn c holds).strict away
  · intro t turn
    rcases List.mem_cons.mp turn with rfl | turn
    · exact ⟨admitted p (co.held_added holds), le_rfl⟩
    · exact ch.inside t turn
  · intro q
    rw [Turn.executed_cons, ch.executed]
    dsimp only [Os.setCpu_pc]
    unfold Os.run
    by_cases own : p = q
    · subst own
      rw [if_pos rfl]
      cases fetched : (cfg.code p)[m.os.pc p]? with
      | none => exact List.append_nil _
      | some ins =>
          dsimp only [Os.note_pc]
          rw [Function.update_self, List.take_add_one, fetched]
    · rw [if_neg own, List.append_nil]
      split
      · rfl
      · dsimp only [Os.note_pc]
        rw [Function.update_of_ne (Ne.symm own)]

/-- The step lemma for the chart. -/
theorem Charted.step (co : m.Coupled) (placed : m.Placed past) (admitted : m.Admitted)
    (ch : m.Charted past) {a : MachineAction cfg.numCpus} (h : m.step a = some m') :
    m'.Charted (m.turns a m' ++ past) := by
  cases step_move h with
  | work moved =>
      cases Os.step_move moved with
      | @cpu c _ move =>
          cases move with
          | run here proc =>
              rw [turns, if_pos here, proc]
              exact ch.run co placed admitted here proc _
          | _ =>
              rw [turns, if_neg (by simp [*])]
              exact ch.quiet le_rfl rfl
      | loader move => cases move <;> exact ch.quiet le_rfl rfl
  | alone ticked => exact ch.quiet (Timer.step_time_le ticked) rfl
  | call ticked moved | ret ticked _ moved | detach ticked moved =>
      cases Os.step_move moved <;> exact ch.quiet (Timer.step_time_le ticked) rfl

end Steps

section Admitted

/-- The loader adds a process in the slot of the schedule, which is the one on the clock. -/
theorem Admitted.step (co : m.Coupled) {marks : List LdMark} (on : m.OnSchedule marks)
    (admitted : m.Admitted) {a : MachineAction cfg.numCpus} (h : m.step a = some m') :
    m'.Admitted := by
  have later : m'.os.ld.i = m.os.ld.i → m.timer.time ≤ m'.timer.time → m'.Admitted :=
    fun i clock p added => (admitted p (i ▸ added)).trans clock
  cases step_move h with
  | work moved =>
      cases Os.step_move moved with
      | cpu move => exact later (by rw [move.frame.1]) le_rfl
      | loader move =>
          have calls := (co.sync.working (co.atWork .loader move.outside)).1
          cases move with
          | add here =>
              have due := on.onTime
              rw [Loader.OnTime, here] at due
              intro p added
              rcases Nat.lt_succ_iff_lt_or_eq.mp added with before | rfl
              · exact admitted p before
              · exact (due.2.symm.trans calls).le
          | _ => exact later rfl le_rfl
  | alone ticked => exact later rfl (Timer.step_time_le ticked)
  | call ticked moved | ret ticked _ moved | detach ticked moved =>
      cases Os.step_move moved <;> exact later rfl (Timer.step_time_le ticked)

theorem reach_onSchedule (reach : Reach step (init cfg) m) : ∃ marks, m.OnSchedule marks := by
  have both := reach.invariant
    (P := fun m => Reach step (init cfg) m ∧ ∃ marks, m.OnSchedule marks)
    (fun m a m' ⟨reach, marks, on⟩ h => ⟨reach.tail h, _, on.step (reach_coupled reach) h⟩)
    ⟨.refl _, _, .init cfg⟩
  exact both.2

theorem reach_admitted (reach : Reach step (init cfg) m) : m.Admitted := by
  have both := reach.invariant (P := fun m => Reach step (init cfg) m ∧ m.Admitted)
    (fun m a m' ⟨reach, admitted⟩ h => by
      obtain ⟨marks, on⟩ := reach_onSchedule reach
      exact ⟨reach.tail h, admitted.step (reach_coupled reach) on h⟩)
    ⟨.refl _, fun p added => absurd added (Nat.not_lt_zero p)⟩
  exact both.2

end Admitted

/-- The run lemma: every run has its chart. -/
theorem run_charted {as : List (MachineAction cfg.numCpus)}
    (runs : run step (init cfg) as = some m) :
    ∃ past, run (recorded step turns) (init cfg, []) as = some (m, past) ∧
      m.Placed past ∧ m.Charted past := by
  obtain ⟨past, recorded_runs, -, placed, ch⟩ := run_beside
    (P := fun m past => Reach step (init cfg) m ∧ m.Placed past ∧ m.Charted past)
    (fun m a m' past ⟨reach, placed, ch⟩ h => by
      have co := reach_coupled reach
      exact ⟨reach.tail h, placed.step co (reach_coupled (reach.tail h)) h,
        ch.step co placed (reach_admitted reach) h⟩)
    runs ⟨.refl _, .init cfg, .init cfg⟩
  exact ⟨past, recorded_runs, placed, ch⟩

/-- Every run has a chart in which no CPU and no process has two turns in a slot, whichever CPUs
the process went through; none of its turns is before its start time, and in the order of the
slots they execute its code from the first instruction on. -/
theorem chart_valid {as : List (MachineAction cfg.numCpus)}
    (runs : run step (init cfg) as = some m) :
    ∃ past, run (recorded step turns) (init cfg, []) as = some (m, past) ∧ m.Charted past ∧
      ∀ t ∈ past, cfg.startTime t.proc ≤ t.slot := by
  obtain ⟨past, recorded_runs, -, ch⟩ := run_charted runs
  exact ⟨past, recorded_runs, ch, fun t turn => Earliest.due_le_slot.trans (ch.inside t turn).1⟩

/-- The process goes from the first CPU to the second one, and each runs it in a slot. -/
def migration : List (MachineAction Os.shared.numCpus) :=
  let threads : List (Thread Os.shared.numCpus) := [.loader, .cpu 0, .cpu 1]
  let first : List (Thread Os.shared.numCpus) :=
    [.loader, .loader, .cpu 0, .cpu 0, .cpu 0, .cpu 1]
  let second : List (Thread Os.shared.numCpus) := [.cpu 0, .cpu 1, .cpu 1, .cpu 1, .cpu 0]
  List.flatten [first.map .work, threads.map fun t => .timer (.nextSlot t),
    List.replicate 9 (.timer .timer), threads.map fun t => .timer (.test t), second.map .work]

theorem chart_valid_migration : ∃ m past,
    run (recorded step turns) (init Os.shared, []) migration = some (m, past) ∧
      (past.map fun t => (t.slot, t.cpu, t.proc)) = [(1, 1, 0), (0, 0, 0)] ∧ m.Charted past := by
  have charted : (run (recorded step turns) (init Os.shared, []) migration).map
      (fun r => r.2.map fun t => (t.slot, t.cpu, t.proc)) = some [(1, 1, 0), (0, 0, 0)] := by
    decide +kernel
  obtain ⟨⟨m, past⟩, recorded_runs, same⟩ := Option.map_eq_some_iff.mp charted
  have runs : run step (init Os.shared) migration = some m := by
    rw [← run_recorded turns (init Os.shared) [], recorded_runs]
    rfl
  obtain ⟨past', recorded_runs', ch, -⟩ := chart_valid runs
  rw [recorded_runs] at recorded_runs'
  obtain rfl : past = past' := (Prod.mk.inj (Option.some.inj recorded_runs')).2
  exact ⟨m, past, recorded_runs, same, ch⟩

section Makespan
variable {past : List (Turn cfg.numCpus)} {p : Nat}

theorem executed_le (past : List (Turn cfg.numCpus)) (p : Nat) :
    (Turn.executed p past).length ≤ past.countP fun t => t.proc = p := by
  rw [Turn.executed, List.length_reverse, List.countP_eq_length_filter]
  exact List.length_filterMap_le _ _

theorem Charted.pc_le (ch : m.Charted past) (order : m.os.InOrder) (p : Nat) :
    m.os.pc p ≤ past.countP fun t => t.proc = p := by
  have shown := executed_le past p
  rwa [ch.executed, List.length_take, Nat.min_eq_left (order p).2] at shown

/-- A process that has been reported finished is at the end of its code, and no CPU has it. -/
theorem finished_at_end (reach : Reach step (init cfg) m) (finished : m.os.Finished p) :
    m.os.pc p = (cfg.code p).length ∧ ∀ c, (m.os.cpu c).held ≠ some p := by
  obtain ⟨order, sealed⟩ := Os.reach_inOrder (reach_os reach)
  obtain ⟨st, t⟩ := (reach_coupled reach).tracked
  refine ⟨?_, fun c holds => ?_⟩
  · obtain ⟨c, reported⟩ := finished
    obtain ⟨newer, older, log⟩ := List.append_of_mem reported
    have all := (sealed c p newer older log).1
    have shown := (order p).1
    rw [log, executed, List.filterMap_append, List.reverse_append, List.filterMap_cons_none rfl]
      at shown
    have longer := congrArg List.length shown
    rw [List.length_append, List.length_take, Nat.min_eq_left (order p).2] at longer
    have whole := congrArg List.length all
    rw [executed] at whole
    have := (order p).2
    omega
  · rw [t.held, (t.finished p).mp finished] at holds
    cases holds

theorem added_le (reach : Reach step (init cfg) m) : m.os.ld.i ≤ cfg.numProcesses := by
  obtain ⟨st, t⟩ := (reach_coupled reach).tracked
  exact t.added

theorem finished_added (reach : Reach step (init cfg) m) (finished : m.os.Finished p) :
    p < m.os.ld.i := by
  obtain ⟨st, t⟩ := (reach_coupled reach).tracked
  by_contra late
  have unborn := (t.finished p).mp finished
  rw [(t.unborn p).mpr (Nat.le_of_not_lt late)] at unborn
  cases unborn

/-- However the CPUs share the work, a process that has been reported finished took a slot for
each of its instructions since it was added, and all of them together took one for each
instruction on one of the CPUs. -/
theorem makespan_lower (reach : Reach step (init cfg) m) :
    (∀ p, m.os.Finished p → cfg.slot p + (cfg.code p).length ≤ m.timer.currentTime) ∧
    ((∀ p < cfg.numProcesses, m.os.Finished p) →
      ∑ p ∈ Finset.range cfg.numProcesses, (cfg.code p).length ≤
        cfg.numCpus * m.timer.currentTime) := by
  obtain ⟨as, runs⟩ := reach
  obtain ⟨past, -, placed, ch⟩ := run_charted runs
  have reach : Reach step (init cfg) m := ⟨as, runs⟩
  have order := (Os.reach_inOrder (reach_os reach)).1
  constructor
  · intro p finished
    obtain ⟨at_end, free⟩ := finished_at_end reach finished
    have turns : past.countP (fun t => t.proc = p) ≤ m.timer.time - cfg.slot p := by
      refine ch.procs.count_le fun t turn own => ?_
      subst own
      exact ⟨(ch.inside t turn).1, placed.left t turn free⟩
    have admitted := reach_admitted reach p (finished_added reach finished)
    have executed := at_end ▸ ch.pc_le order p
    change cfg.slot p + _ ≤ m.timer.time
    omega
  · intro finished
    have earlier : ∀ t ∈ past, t.slot < m.timer.time := by
      refine fun t turn => placed.left t turn fun c holds => ?_
      have inside : t.proc < cfg.numProcesses :=
        ((reach_coupled reach).held_added holds).trans_le (added_le reach)
      exact (finished_at_end reach (finished t.proc inside)).2 c holds
    calc ∑ p ∈ Finset.range cfg.numProcesses, (cfg.code p).length
        ≤ ∑ p ∈ Finset.range cfg.numProcesses, past.countP fun t => t.proc = p := by
          refine Finset.sum_le_sum fun p inside => ?_
          rw [← (finished_at_end reach (finished p (Finset.mem_range.mp inside))).1]
          exact ch.pc_le order p
      _ ≤ past.length := Chart.sum_count_le _ _
      _ ≤ Fintype.card (Fin cfg.numCpus) * m.timer.time := ch.cpus.length_le earlier
      _ = cfg.numCpus * m.timer.currentTime := by rw [Fintype.card_fin]; rfl

/-- One process of one instruction, which it has executed at slot 1. -/
theorem makespan_lower_solo : ∃ m : Machine solo, Reach step (init solo) m ∧
    m.timer.currentTime = 1 ∧ m.os.Finished 0 ∧
    solo.slot 0 + (solo.code 0).length ≤ m.timer.currentTime ∧
    ∑ p ∈ Finset.range 1, (solo.code p).length ≤ 1 * m.timer.currentTime := by
  obtain ⟨m, through, now, finished⟩ : ∃ m ∈ Transition.run step (init solo) soloRun,
      m.timer.currentTime = 1 ∧ ∀ p < solo.numProcesses, m.os.Finished p := by
    decide +kernel
  have reach : Reach step (init solo) m := ⟨_, through⟩
  obtain ⟨each, together⟩ := makespan_lower reach
  exact ⟨m, reach, now, finished 0 Nat.one_pos, each 0 (finished 0 Nat.one_pos),
    together finished⟩

end Makespan

end Machine
end OsSim
