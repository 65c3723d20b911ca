import OsSim.SlotSteps

/-! No CPU is idle while a process waits. A CPU that finds no process has looked into empty
queues; until the slot is over a process gets there only by a put_proc, after which its CPU
takes one out again, or because the loader adds it. -/
namespace OsSim
open Transition

namespace Sched
variable {α : Type*} {s s' : Sched α} {levels l : Nat}

/-- How many processes wait, on the first levels. -/
def waiting (s : Sched α) (levels : Nat) : Nat := ∑ l ∈ Finset.range levels, (s.level l).length

theorem waiting_pos {x : α} (inside : l < levels) (waits : x ∈ s.level l) : 0 < s.waiting levels :=
  (List.length_pos_of_mem waits).trans_le <|
    Finset.single_le_sum (f := fun l => (s.level l).length) (fun _ _ => Nat.zero_le _)
      (Finset.mem_range.mpr inside)

theorem waiting_empty (empty : ∀ l < levels, s.level l = []) : s.waiting levels = 0 := by
  refine Finset.sum_eq_zero fun l inside => ?_
  rw [empty l (Finset.mem_range.mp inside), List.length_nil]

theorem waiting_taken {x : α} {older newer : List α} (inside : l < levels)
    (before : s.level l = older ++ x :: newer)
    (after : ∀ k, s'.level k = if k = l then older ++ newer else s.level k) :
    s'.waiting levels + 1 = s.waiting levels := by
  have one := sum_one (f := fun k => (s.level k).length) (g := fun k => (s'.level k).length)
    (Finset.mem_range.mpr inside) fun k _ other => by rw [after, if_neg other]
  rw [after, if_pos rfl, before] at one
  simp only [List.length_append, List.length_cons] at one
  unfold waiting
  omega

theorem addMlqProc_waiting (prio : α → Nat) (proc : α) :
    (s.addMlqProc prio proc).waiting levels ≤ s.waiting levels + 1 := by
  have each : ∀ l, ((s.addMlqProc prio proc).level l).length ≤
      (s.level l).length + if prio proc = l then 1 else 0 := by
    intro l
    rw [addMlqProc_level]
    split
    · rename_i here
      rw [List.length_append, if_pos here.1.symm]
      rfl
    · exact Nat.le_add_right _ _
  refine (Finset.sum_le_sum fun l _ => each l).trans ?_
  rw [Finset.sum_add_distrib, Finset.sum_ite_eq]
  refine Nat.add_le_add_left ?_ _
  split
  · exact le_rfl
  · exact Nat.zero_le _

end Sched

namespace Os
variable {cfg : Config} {s s' : Os cfg} {c : Fin cfg.numCpus}

def waits (s : Os cfg) : Nat := s.sched.waiting maxPrio

/-- One, where the CPU has put a process back and has not yet asked for another one. -/
def puts (s : Os cfg) (c : Fin cfg.numCpus) : Nat := if (s.cpu c).loc = .afterPut then 1 else 0

theorem waits_congr (sched : s'.sched = s.sched) : s'.waits = s.waits := by
  rw [waits, waits, sched]

theorem added_waits {p : Nat} (sched : s'.sched = s.sched.addMlqProc cfg.prio p) :
    s'.waits ≤ s.waits + 1 := by
  rw [waits, sched]
  exact Sched.addMlqProc_waiting cfg.prio p

/-- A get_proc returns NULL where no process waits, else it takes one of them out. -/
theorem getProc_waits (static : s.sched.currentPrio = 0) (c : Fin cfg.numCpus) (left : Int)
    (loc : Option Nat → CpuLoc) :
    (s.getProc c left loc).waits = 0 ∧ (s.getProc c left loc).cpu c = ⟨loc none, none, left⟩ ∨
    ∃ x, (s.getProc c left loc).waits + 1 = s.waits ∧
      (s.getProc c left loc).cpu c = ⟨loc (some x), some x, left⟩ := by
  unfold getProc
  rcases Sched.getMlqProc_cases cfg.priority static with
    ⟨empty, eq⟩ | ⟨p, older, x, newer, sched, lowest, eq, -, before, after, -⟩
  · rw [eq]
    exact .inl ⟨Sched.waiting_empty empty, setCpu_same _ _ _⟩
  · rw [eq]
    exact .inr ⟨x, Sched.waiting_taken lowest.1 before after, setCpu_same _ _ _⟩

/-- A CPU's own step leaves none waiting, or as many as before, but for the one that it puts back
and the one that it takes out after that. -/
theorem CpuMove.waits (static : s.sched.currentPrio = 0) (move : CpuMove s c s') :
    s'.waits = 0 ∨ s'.waits + s.puts c ≤ s.waits + s'.puts c := by
  have same : s'.sched = s.sched → (s.cpu c).loc ≠ .afterPut →
      s'.waits + s.puts c ≤ s.waits + s'.puts c := by
    intro sched away
    rw [puts, if_neg away, waits_congr sched]
    omega
  have got : ∀ left loc, s' = s.getProc c left loc →
      s'.waits = 0 ∨ s'.waits + s.puts c ≤ s.waits + s'.puts c := by
    rintro left loc rfl
    rcases getProc_waits static c left loc with ⟨none, -⟩ | ⟨x, taken, -⟩
    · exact .inl none
    · right
      have one : s.puts c ≤ 1 := by
        unfold puts
        split <;> decide
      omega
  cases move with
  | load | afterFinish | afterPut => exact got _ _ rfl
  | @expire p here =>
      right
      rw [puts, puts, here, if_neg (by nofun), note_cpu, setCpu_same, if_pos rfl, Nat.add_zero]
      exact added_waits rfl
  | report here | resume here | stop here | skip here | dispatch here | proceed here =>
      exact .inr (same rfl (by rw [here]; nofun))
  | @run p here =>
      exact .inr (same (s.run_frame c p).1 (by rw [here]; nofun))

end Os

namespace Machine
variable {cfg : Config} {m m' : Machine cfg}

/-- The CPU is about to call next_slot, or has called it in the slot on the clock. -/
def Used (m : Machine cfg) (c : Fin cfg.numCpus) : Prop :=
  (m.os.cpu c).loc = .slotDue ∨ (m.os.cpu c).loc = .inSlot ∧ m.cpuCalls c = m.timer.time + 1

/-- The CPU runs no more process in this slot: it has found none, or it has left its loop. -/
def Spare (m : Machine cfg) (c : Fin cfg.numCpus) : Prop :=
  (m.os.cpu c).proc = none ∧
    ((m.os.cpu c).loc = .recheck ∨ m.Used c ∨ ¬ (m.os.cpu c).loc.InLoop)

/-- The processes that the loader has added in the slot on the clock. -/
def arrivals (m : Machine cfg) : Finset Nat :=
  (Finset.range m.os.ld.i).filter fun p => cfg.slot p = m.timer.time

/-- While a CPU is spare, no more processes wait than the other CPUs will take out again, and the
loader has just added. -/
structure Conserving (m : Machine cfg) (past : List (Turn cfg.numCpus)) : Prop where
  ran : ∀ c p, (m.os.cpu c).proc = some p → m.Used c →
    ∃ t ∈ past, t.slot = m.timer.time ∧ t.cpu = c ∧ t.proc = p
  left : ∀ c, ¬ (m.os.cpu c).loc.InLoop → (m.os.cpu c).proc = none ∧ m.os.done = true
  closed : m.os.done = true → ∀ p < cfg.numProcesses, cfg.slot p < m.timer.time
  few : (∃ c, m.Spare c) → m.os.waits ≤ ∑ c, m.os.puts c + m.arrivals.card

theorem Used.congr {c : Fin cfg.numCpus} (used : m'.Used c) (cpu : m'.os.cpu c = m.os.cpu c)
    (calls : m'.cpuCalls c = m.cpuCalls c) (clock : m'.timer.time = m.timer.time) :
    m.Used c := by
  rwa [Used, cpu, calls, clock] at used

theorem Spare.congr {c : Fin cfg.numCpus} (spare : m'.Spare c) (cpu : m'.os.cpu c = m.os.cpu c)
    (calls : m'.cpuCalls c = m.cpuCalls c) (clock : m'.timer.time = m.timer.time) :
    m.Spare c := by
  rwa [Spare, Used, cpu, calls, clock] at spare

theorem Conserving.init (cfg : Config) : (init cfg).Conserving [] where
  ran c p has := nomatch has
  left c out := absurd ⟨nofun, nofun⟩ out
  closed ended := nomatch ended
  few spare := by
    obtain ⟨c, -, here | (due | here) | out⟩ := spare
    · cases here
    · cases due
    · cases here.1
    · exact absurd ⟨nofun, nofun⟩ out

section Steps
variable {past : List (Turn cfg.numCpus)} {os : Os cfg} {timer : Timer (Thread cfg.numCpus)}
  {c : Fin cfg.numCpus}

theorem puts_move (move : Os.CpuMove m.os c os) :
    ∑ d, os.puts d + m.os.puts c = ∑ d, m.os.puts d + os.puts c :=
  sum_one (Finset.mem_univ c) fun d _ other => by rw [Os.puts, Os.puts, move.frame.2.2 d other]

/-- What a CPU's own step leaves of the CPU, where it is spare or has used its slot after it. -/
theorem cpuMove_spare (co : m.Coupled) (move : Os.CpuMove m.os c os)
    (spare : Spare ⟨os, m.timer⟩ c) : m.Spare c ∨ os.waits = 0 := by
  obtain ⟨st, t⟩ := co.tracked
  obtain ⟨none, at_loc⟩ := spare
  have got : ∀ left loc, os = m.os.getProc c left loc → m.Spare c ∨ os.waits = 0 := by
    rintro left loc rfl
    rcases Os.getProc_waits t.static c left loc with ⟨empty, -⟩ | ⟨x, -, has⟩
    · exact .inr empty
    · dsimp only at none
      rw [has] at none
      cases none
  have busy : ∀ {p}, (os.cpu c).proc = some p → m.Spare c ∨ os.waits = 0 :=
    fun has => nomatch none.symm.trans has
  cases move with
  | load | afterFinish | afterPut => exact got _ _ rfl
  | report | expire | resume | dispatch | proceed | run => 
      exact busy (congrArg Cpu.proc (Os.setCpu_same _ _ _))
  | stop here had | skip here had => exact .inl ⟨had, .inl here⟩

/-- A CPU's own step. -/
theorem Conserving.cpuMove (co : m.Coupled) (con : m.Conserving past)
    (move : Os.CpuMove m.os c os) :
    Conserving ⟨os, m.timer⟩ (m.turns (.work (.cpu c)) ⟨os, m.timer⟩ ++ past) := by
  obtain ⟨ld, done, others⟩ := move.frame
  obtain ⟨st, t⟩ := co.tracked
  obtain ⟨ran, left, closed, few⟩ := con
  refine ⟨fun d p has used => ?_, fun d out => ?_, fun ended => closed (done ▸ ended), ?_⟩
  · by_cases own : d = c
    · subst own
      have call : (os.cpu d).loc = .slotDue := by
        refine used.resolve_right fun inside => ?_
        cases move <;> simp [Os.getProc] at inside
        exact absurd inside.1 (by split <;> simp)
      cases move with
      | @run p' here proc =>
          rw [turns, if_pos here, proc]
          obtain rfl : p' = p := by simpa using has
          exact ⟨_, List.mem_cons_self, rfl, rfl, rfl⟩
      | skip => simp at has
      | load =>
          rcases Os.getProc_waits t.static d _ _ with ⟨-, eq⟩ | ⟨x, -, eq⟩
          · dsimp only at has
            rw [eq] at has
            cases has
          · rw [eq] at call
            cases call
      | _ => simp [Os.getProc] at call
    · dsimp only at has
      rw [others d own] at has
      obtain ⟨t, turn, is⟩ := ran d p has (used.congr (others d own) rfl rfl)
      exact ⟨t, List.mem_append_right _ turn, is⟩
  · dsimp only at out ⊢
    by_cases own : d = c
    · subst own
      cases move with
      | stop here none ended => exact ⟨by simp, ended⟩
      | load =>
          refine absurd ?_ out
          simp only [Os.getProc, Os.setCpu_same]
          split <;> simp [CpuLoc.InLoop]
      | _ => exact absurd (by simp [CpuLoc.InLoop, Os.getProc]) out
    · rw [others d own] at out ⊢
      exact done ▸ left d out
  · rintro ⟨d, spare⟩
    have before : (∃ d, m.Spare d) ∨ os.waits = 0 := by
      by_cases own : d = c
      · subst own
        exact (cpuMove_spare co move spare).imp_left fun before => ⟨d, before⟩
      · exact .inl ⟨d, spare.congr (others d own) rfl rfl⟩
    have arrived : arrivals ⟨os, m.timer⟩ = m.arrivals := by rw [arrivals, ld]; rfl
    rw [arrived]
    have puts := puts_move move
    rcases before with before | none
    · have waits := few before
      rcases move.waits t.static with none | waits'
      · dsimp only
        omega
      · dsimp only
        omega
    · dsimp only
      omega

/-- A step in which no process is moved, and no CPU comes to be spare. -/
theorem Conserving.same (con : m.Conserving past) (sched : m'.os.sched = m.os.sched)
    (ld : m'.os.ld.i = m.os.ld.i) (done : m'.os.done = m.os.done)
    (clock : m'.timer.time = m.timer.time)
    (cpus : ∀ c, (m'.os.cpu c).proc = (m.os.cpu c).proc ∧ m'.os.puts c = m.os.puts c ∧
      (m'.Used c → m.Used c) ∧ ((m'.os.cpu c).loc = .recheck → (m.os.cpu c).loc = .recheck) ∧
      (¬ (m'.os.cpu c).loc.InLoop → ¬ (m.os.cpu c).loc.InLoop)) : m'.Conserving past where
  ran c p has used := by
    obtain ⟨proc, -, was, -⟩ := cpus c
    exact clock ▸ con.ran c p (proc ▸ has) (was used)
  left c out := by
    obtain ⟨proc, -, -, -, was⟩ := cpus c
    exact proc ▸ done ▸ con.left c (was out)
  closed ended := clock ▸ con.closed (done ▸ ended)
  few spare := by
    obtain ⟨c, none, at_loc⟩ := spare
    obtain ⟨proc, -, used, recheck, inLoop⟩ := cpus c
    have few := con.few ⟨c, proc ▸ none, at_loc.imp recheck (Or.imp used inLoop)⟩
    rw [Os.waits_congr sched, arrivals, ld, clock, Finset.sum_congr rfl fun c _ => (cpus c).2.1]
    exact few

/-- The loader adds one process, and then another one waits at most. -/
theorem Conserving.ldMove (co : m.Coupled) {marks : List LdMark} (on : m.OnSchedule marks)
    (con : m.Conserving past) (move : Os.LdMove m.timer.currentTime m.os os) :
    Conserving ⟨os, m.timer⟩ past := by
  have cpu := move.frame_cpu
  have used : ∀ c, Used ⟨os, m.timer⟩ c → m.Used c := fun c used =>
    used.congr (congrFun cpu c) rfl rfl
  have onTime := on.onTime
  rw [(co.sync.working (co.atWork .loader move.outside)).1] at onTime
  have onTime' := onTime.work move
  cases move with
  | early | due => exact con.same rfl rfl rfl rfl fun c => ⟨rfl, rfl, used c, id, id⟩
  | finish here past =>
      refine ⟨con.ran, fun c out => ⟨(con.left c out).1, rfl⟩, fun _ p inside => ?_, con.few⟩
      obtain ⟨all, now⟩ : m.os.ld.i = cfg.numProcesses ∧ m.timer.time = cfg.free m.os.ld.i :=
        onTime'
      dsimp only
      rw [now, all]
      exact Earliest.slot_lt_free.mpr inside
  | add here =>
      rw [Loader.OnTime, here] at onTime
      refine ⟨con.ran, con.left, con.closed, fun spare => ?_⟩
      have few := con.few spare
      have arrived : (arrivals ⟨{ m.os with
          sched := m.os.sched.addMlqProc cfg.prio m.os.ld.i
          ld := ⟨.added, m.os.ld.i + 1⟩ }.note (.loaded m.os.ld.i), m.timer⟩).card =
          m.arrivals.card + 1 := by
        unfold arrivals
        dsimp only [Os.note_ld]
        rw [Finset.range_add_one, Finset.filter_insert, if_pos onTime.2.symm,
          Finset.card_insert_of_notMem (by simp)]
      rw [arrived]
      refine (Os.added_waits (s := m.os) rfl).trans ?_
      exact (Nat.add_le_add_right few 1).trans_eq (Nat.add_assoc _ _ _)

/-- A call, a return or a detach: no CPU comes to be spare by it. -/
theorem timerCall_cpus {a : TimerAction (Thread cfg.numCpus)}
    (ticked : m.timer.step (devList _) a = some timer) (clock : timer.time = m.timer.time)
    {now : Nat} {k : TimerCall} {t : Thread cfg.numCpus}
    (moved : m.os.step now (.timer k t) = some os) (only : ∀ u ≠ t, a ≠ .nextSlot u)
    (d : Fin cfg.numCpus) :
    (os.cpu d).proc = (m.os.cpu d).proc ∧ os.puts d = m.os.puts d ∧
      (Used ⟨os, timer⟩ d → m.Used d) ∧
      ((os.cpu d).loc = .recheck → (m.os.cpu d).loc = .recheck) ∧
      (¬ (os.cpu d).loc.InLoop → ¬ (m.os.cpu d).loc.InLoop) := by
  have calls : ∀ d, a ≠ .nextSlot (.cpu d) → (timer.dev (.cpu d)).calls = m.cpuCalls d :=
    fun d other => (Timer.step_devMove ticked _).calls other
  cases Os.step_move moved with
  | @cpuTimer _ loc c after =>
      by_cases own : d = c
      · subst own
        simp only [Os.setCpu_same, Os.puts, Used]
        cases k <;> cases here : (m.os.cpu d).loc <;> rw [here] at after <;> cases after
        all_goals simp [CpuLoc.InLoop]
      · have same : (m.os.setCpu c ⟨loc, (m.os.cpu c).proc, (m.os.cpu c).timeLeft⟩).cpu d =
            m.os.cpu d := by rw [Os.setCpu_cpu, if_neg own]
        have other : a ≠ .nextSlot (.cpu d) := only _ fun eq => own (Thread.cpu.inj eq)
        refine ⟨by rw [same], by rw [Os.puts, same]; rfl, fun used => ?_, by rw [same]; exact id,
          by rw [same]; exact id⟩
        exact used.congr same (calls d other) clock
  | ldTimer =>
      refine ⟨rfl, rfl, fun used => ?_, id, id⟩
      exact used.congr rfl (calls d (only _ fun eq => by cases eq)) clock

theorem Conserving.timerCall (con : m.Conserving past) {a : TimerAction (Thread cfg.numCpus)}
    (ticked : m.timer.step (devList _) a = some timer) (clock : timer.time = m.timer.time)
    {now : Nat} {k : TimerCall} {t : Thread cfg.numCpus}
    (moved : m.os.step now (.timer k t) = some os) (only : ∀ u ≠ t, a ≠ .nextSlot u) :
    Conserving ⟨os, timer⟩ past := by
  have cpus := timerCall_cpus ticked clock moved only
  cases Os.step_move moved with
  | cpuTimer => exact con.same rfl rfl rfl clock cpus
  | ldTimer => exact con.same rfl rfl rfl clock cpus

/-- Where the clock is about to move, a CPU is in the call for its slot, or has left. -/
theorem slot_over (co : m.Coupled) (inStep : m.InStep) (here : m.timer.loc = .examine [])
    (c : Fin cfg.numCpus) :
    (m.os.cpu c).loc = .inSlot ∧ m.cpuCalls c = m.timer.time + 1 ∨
      (m.os.cpu c).loc = .detached := by
  have counted : m.timer.mark (.cpu c) = .counted := by simp [Timer.mark, here]
  have away : (m.timer.dev (.cpu c)).loc ≠ .working := by
    intro working
    rw [(co.sync.working working).2.2.2.2] at counted
    cases counted
  refine (not_not.mp fun out => away (co.atWork (.cpu c) out)).imp_left fun inside => ?_
  refine ⟨inside, ?_⟩
  have attached : (m.timer.dev (.cpu c)).loc ≠ .detached := fun gone => by
    rcases (inStep.detached _).mpr gone with eq | eq
    · cases inside.symm.trans (Sum.inl.inj eq)
    · cases eq
  have ok := co.sync.devices (.cpu c)
  rw [counted] at ok
  cases loc : (m.timer.dev (.cpu c)).loc with
  | working => exact absurd loc away
  | detached => exact absurd loc attached
  | testing | waiting =>
      simp only [Timer.DevOk, loc] at ok
      by_cases up : (m.timer.dev (.cpu c)).done = true
      · simpa [cpuCalls, up] using ok.2.2.2
      · simp [up] at ok

theorem Conserving.no_arrivals (con : m.Conserving past) (added : m.os.ld.i ≤ cfg.numProcesses)
    (ended : m.os.done = true) : m.arrivals = ∅ := by
  refine Finset.filter_eq_empty_iff.mpr fun p member now => ?_
  have before := con.closed ended p ((Finset.mem_range.mp member).trans_le added)
  exact absurd now before.ne

/-- In the slot that begins no CPU has used up anything yet. -/
theorem unused_ticked (co : m.Coupled) (inStep : m.InStep) (here : m.timer.loc = .examine [])
    (clock : timer.time = m.timer.time + 1) (dev : timer.dev = m.timer.dev)
    (c : Fin cfg.numCpus) : ¬ Used ⟨m.os, timer⟩ c := by
  rintro (due | ⟨inside, next⟩)
  · rcases slot_over co inStep here c with ⟨inside, -⟩ | gone
    · cases inside.symm.trans due
    · cases gone.symm.trans due
  · rcases slot_over co inStep here c with ⟨-, calls⟩ | gone
    · rw [cpuCalls, dev, clock] at next
      exact absurd (calls.symm.trans next) (Nat.lt_succ_self _).ne
    · cases gone.symm.trans inside

/-- A CPU that is spare in the slot that begins has left its loop. -/
theorem spare_ticked (co : m.Coupled) (inStep : m.InStep) (here : m.timer.loc = .examine [])
    (clock : timer.time = m.timer.time + 1) (dev : timer.dev = m.timer.dev)
    (spare : Spare ⟨m.os, timer⟩ c) : ¬ (m.os.cpu c).loc.InLoop := by
  obtain ⟨-, recheck | used | out⟩ := spare
  · rcases slot_over co inStep here c with ⟨inside, -⟩ | gone
    · cases inside.symm.trans recheck
    · cases gone.symm.trans recheck
  · exact absurd used (unused_ticked co inStep here clock dev c)
  · exact out

theorem puts_over (co : m.Coupled) (inStep : m.InStep) (here : m.timer.loc = .examine []) :
    ∑ c, m.os.puts c = 0 := by
  refine Finset.sum_eq_zero fun c _ => if_neg fun put => ?_
  rcases slot_over co inStep here c with ⟨inside, -⟩ | gone
  · cases inside.symm.trans put
  · cases gone.symm.trans put

/-- Once a CPU has left its loop no process waits at the end of a slot. -/
theorem Conserving.none_left (co : m.Coupled) (inStep : m.InStep) (con : m.Conserving past)
    (here : m.timer.loc = .examine []) (out : ¬ (m.os.cpu c).loc.InLoop) : m.os.waits = 0 := by
  obtain ⟨st, t⟩ := co.tracked
  obtain ⟨none, ended⟩ := con.left c out
  have few := con.few ⟨c, none, .inr (.inr out)⟩
  rw [con.no_arrivals t.added ended, puts_over co inStep here] at few
  exact Nat.le_zero.mp few

/-- When the clock moves, a CPU that stays spare has left its loop, and nothing has been added in
the slot. -/
theorem Conserving.tick (co : m.Coupled) (inStep : m.InStep) (con : m.Conserving past)
    (here : m.timer.loc = .examine []) (clock : timer.time = m.timer.time + 1)
    (dev : timer.dev = m.timer.dev) : Conserving ⟨m.os, timer⟩ past := by
  refine ⟨fun c p _ used => absurd used (unused_ticked co inStep here clock dev c), con.left,
    fun ended p inside => ?_, ?_⟩
  · exact (con.closed ended p inside).trans_eq' rfl |>.trans_le (clock ▸ Nat.le_succ _)
  · rintro ⟨c, spare⟩
    have none := con.none_left co inStep here (spare_ticked co inStep here clock dev spare)
    exact none.le.trans (Nat.zero_le _)

/-- The step lemma. -/
theorem Conserving.step (co : m.Coupled) (inStep : m.InStep) {marks : List LdMark}
    (on : m.OnSchedule marks) (con : m.Conserving past) {a : MachineAction cfg.numCpus}
    (h : m.step a = some m') : m'.Conserving (m.turns a m' ++ past) := by
  cases step_move h with
  | work moved =>
      cases Os.step_move moved with
      | cpu move => exact con.cpuMove co move
      | loader move => exact con.ldMove co on move
  | alone ticked no_call =>
      rcases Timer.step_clock ticked with still | ⟨-, here, rfl⟩
      · refine con.same rfl rfl rfl still fun c => ⟨rfl, rfl, fun used => ?_, id, id⟩
        exact used.congr rfl ((Timer.step_devMove ticked _).calls (no_call _)) still
      · exact con.tick co inStep here rfl rfl
  | call ticked moved =>
      exact con.timerCall ticked (Timer.step_still ticked nofun) moved
        fun u other same => other (by cases same; rfl)
  | ret ticked _ moved | detach ticked moved =>
      exact con.timerCall ticked (Timer.step_still ticked nofun) moved nofun

end Steps

/-- The run lemma, beside the chart of the run. -/
theorem run_conserving {as : List (MachineAction cfg.numCpus)}
    (runs : run step (init cfg) as = some m) :
    ∃ past, run (recorded step turns) (init cfg, []) as = some (m, past) ∧ m.Conserving past := by
  obtain ⟨past, recorded_runs, -, con⟩ := run_beside
    (P := fun m past => Reach step (init cfg) m ∧ m.Conserving past)
    (fun m a m' past ⟨reach, con⟩ h => by
      obtain ⟨marks, on⟩ := reach_onSchedule reach
      exact ⟨reach.tail h, con.step (reach_coupled reach) (reach_inStep reach) on h⟩)
    runs ⟨.refl _, .init cfg⟩
  exact ⟨past, recorded_runs, con⟩

/-- At the end of a slot each CPU has run a process in it, or no more wait than were added. -/
theorem Conserving.slot_end {past : List (Turn cfg.numCpus)} (co : m.Coupled) (inStep : m.InStep)
    (con : m.Conserving past) (here : m.timer.loc = .examine []) (c : Fin cfg.numCpus) :
    (∃ t ∈ past, t.slot = m.timer.time ∧ t.cpu = c) ∨ m.os.waits ≤ m.arrivals.card := by
  have spare_few : m.Spare c → m.os.waits ≤ m.arrivals.card := by
    intro spare
    exact (con.few ⟨c, spare⟩).trans_eq (by rw [puts_over co inStep here, Nat.zero_add])
  rcases slot_over co inStep here c with used | gone
  · cases has : (m.os.cpu c).proc with
    | some p =>
        obtain ⟨t, turn, now, own, -⟩ := con.ran c p has (.inr used)
        exact .inl ⟨t, turn, now, own⟩
    | none => exact .inr (spare_few ⟨has, .inr (.inl (.inr used))⟩)
  · have out : ¬ (m.os.cpu c).loc.InLoop := fun inLoop => inLoop.2 gone
    exact .inr (spare_few ⟨(con.left c out).1, .inr (.inr out)⟩)

theorem arrivals_le_one (m : Machine cfg) : m.arrivals.card ≤ 1 := by
  refine Finset.card_le_one.mpr fun p member q member' => ?_
  exact Earliest.slot_strictMono.injective
    ((Finset.mem_filter.mp member).2.trans (Finset.mem_filter.mp member').2.symm)

/-- In every run, and wherever the clock moves on in it: a CPU that has run no process in the
slot leaves none waiting, but for one where the loader has added one in the slot. -/
theorem work_conserving {as : List (MachineAction cfg.numCpus)}
    (runs : run step (init cfg) as = some m) {a : MachineAction cfg.numCpus}
    (h : m.step a = some m') (ends : m.timer.currentTime < m'.timer.currentTime) :
    ∃ past, run (recorded step turns) (init cfg, []) as = some (m, past) ∧
      ∀ c, (∃ t ∈ past, t.slot = m.timer.currentTime ∧ t.cpu = c) ∨ m.os.waits = 0 ∨
        m.os.waits = 1 ∧ ∃ p < m.os.ld.i, cfg.slot p = m.timer.currentTime := by
  have reach : Reach step (init cfg) m := ⟨as, runs⟩
  obtain ⟨past, recorded_runs, con⟩ := run_conserving runs
  have here : m.timer.loc = .examine [] := by
    cases step_move h with
    | work => exact absurd ends (lt_irrefl _)
    | alone ticked | call ticked | ret ticked | detach ticked =>
        exact (Timer.step_clock ticked).resolve_left (fun still => ends.ne still.symm) |>.2.1
  refine ⟨past, recorded_runs, fun c => ?_⟩
  refine (con.slot_end (reach_coupled reach) (reach_inStep reach) here c).imp_right fun few => ?_
  rcases Nat.eq_zero_or_pos m.os.waits with none | some
  · exact .inl none
  · obtain ⟨p, member⟩ := Finset.card_pos.mp (some.trans_le few)
    obtain ⟨added, now⟩ := Finset.mem_filter.mp member
    exact .inr ⟨le_antisymm (few.trans m.arrivals_le_one) some, p, Finset.mem_range.mp added, now⟩

/-- The first slot of two CPUs that have one process between them, up to the clock's move. -/
def sharedOnce : List (MachineAction Os.shared.numCpus) :=
  let threads : List (Thread Os.shared.numCpus) := [.loader, .cpu 0, .cpu 1]
  let works : List (Thread Os.shared.numCpus) :=
    [.loader, .loader, .cpu 0, .cpu 0, .cpu 0, .cpu 1]
  List.flatten [works.map .work, threads.map fun t => .timer (.nextSlot t),
    List.replicate 4 (.timer .timer)]

theorem work_conserving_shared : ∃ m past,
    run (recorded step turns) (init Os.shared, []) sharedOnce = some (m, past) ∧
      (past.map fun t => (t.slot, t.cpu)) = [(0, 0)] ∧
      (m.os.waits = 0 ∨ m.os.waits = 1 ∧ ∃ p < m.os.ld.i, Os.shared.slot p = 0) := by
  obtain ⟨m, through, m', next, now, now'⟩ : ∃ m ∈ run step (init Os.shared) sharedOnce,
      ∃ m' ∈ m.step (.timer .timer), m.timer.currentTime = 0 ∧ m'.timer.currentTime = 1 := by
    decide +kernel
  have turns_are : (run (recorded step turns) (init Os.shared, []) sharedOnce).map
      (fun r => r.2.map fun t => (t.slot, t.cpu)) = some [(0, 0)] := by decide +kernel
  obtain ⟨past, recorded_runs, each⟩ := work_conserving through next (by rw [now, now']; decide)
  rw [recorded_runs] at turns_are
  have listed : (past.map fun t => (t.slot, t.cpu)) = [(0, 0)] := Option.some.inj turns_are
  refine ⟨m, past, recorded_runs, listed, ?_⟩
  rw [now] at each
  refine (each ⟨1, by decide⟩).resolve_left ?_
  rintro ⟨t, turn, -, cpu⟩
  have member := List.mem_map_of_mem (f := fun t : Turn _ => (t.slot, t.cpu)) turn
  rw [listed] at member
  have first := congrArg Prod.snd (List.mem_singleton.mp member)
  rw [cpu] at first
  exact absurd (congrArg Fin.val first) Nat.one_ne_zero

end Machine
end OsSim
