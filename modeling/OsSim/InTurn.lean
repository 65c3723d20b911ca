import OsSim.TimeSlices
import OsSim.WorkConserving

/-! How long a process waits. Whatever the order of the threads' steps, the ready queues are one
pool: while a process waits, those that it is tied with go before it once at most, and only if
they were ahead of it. And as long as it waits no CPU is idle. -/
namespace OsSim
open Transition

namespace Config

/-- The two processes have the same level and the same place in its order. -/
def Tied (cfg : Config) (p q : Nat) : Prop :=
  cfg.prio q = cfg.prio p ∧ cfg.priority q = cfg.priority p

instance (cfg : Config) (p q : Nat) : Decidable (cfg.Tied p q) :=
  inferInstanceAs (Decidable (_ ∧ _))

end Config

namespace Sched
variable {α : Type*} {prio priority : α → Nat} {s s' : Sched α} {pool taken taken' : List α}

/-- Requests to the pool have led to what the levels hold, and have served these processes. -/
def Serves (prio priority : α → Nat) (pool taken : List α) (s : Sched α) : Prop :=
  ∃ events pool', PriorityPool.Run (Better prio priority) pool events pool' ∧
    PriorityPool.served events = taken ∧ Holds prio pool' s

theorem Holds.serves (holds : Holds prio pool s) (priority : α → Nat) :
    Serves prio priority pool [] s :=
  ⟨[], pool, .nil pool, rfl, holds⟩

theorem Serves.trans (first : Serves prio priority pool taken s)
    (second : ∀ pool', Holds prio pool' s → Serves prio priority pool' taken' s') :
    Serves prio priority pool (taken ++ taken') s' := by
  obtain ⟨events, middle, run, rfl, holds⟩ := first
  obtain ⟨later, pool', run', rfl, holds'⟩ := second middle holds
  exact ⟨events ++ later, pool', run.append run', PriorityPool.served_append events later, holds'⟩

/-- A put_proc or add_proc on a level that is full changes nothing. -/
theorem Holds.full (holds : Holds prio pool s) {proc : α} (full : s.Full (prio proc)) :
    Holds prio pool (s.addMlqProc prio proc) where
  static := holds.static
  bounded := holds.bounded
  levels l inside := by
    rw [addMlqProc_level, if_neg, holds.levels l inside]
    rintro ⟨rfl, room⟩
    exact room full

theorem Holds.enqueue (holds : Holds prio pool s) (priority : α → Nat) {proc : α}
    (inside : prio proc < maxPrio) :
    Serves prio priority pool [] (s.addMlqProc prio proc) := by
  by_cases full : s.Full (prio proc)
  · exact (holds.full full).serves priority
  · exact ⟨[(.submit proc, none)], _, .cons (.submit pool proc) (.nil _), rfl,
      holds.submit inside full⟩

theorem Holds.get (holds : Holds prio pool s) (priority : α → Nat) :
    Serves prio priority pool (s.getMlqProc priority).1.toList (s.getMlqProc priority).2 := by
  have served : ∃ pool', PriorityPool.Step (Better prio priority) pool .serve
      (s.getMlqProc priority).1 pool' ∧ Holds prio pool' (s.getMlqProc priority).2 := holds.serve
  obtain ⟨pool', step, holds'⟩ := served
  refine ⟨_, pool', .cons step (.nil pool'), ?_, holds'⟩
  rw [PriorityPool.served_cons]
  exact List.append_nil _

/-- A process that get_mlq_proc returns had only processes of smaller priority ahead of it. -/
theorem Holds.get_first (holds : Holds prio pool s) {x : α} {ahead behind : List α}
    (level : s.level (prio x) = ahead ++ x :: behind) (once : (s.level (prio x)).Nodup)
    (got : (s.getMlqProc priority).1 = some x) : ∀ y ∈ ahead, priority y < priority x := by
  rcases getMlqProc_cases priority holds.static with
    ⟨-, eq⟩ | ⟨p, older, x', newer, s', lowest, eq, -, split, -, larger, -⟩
  · cases (congrArg Prod.fst eq).symm.trans got
  · obtain rfl : x' = x := Option.some.inj ((congrArg Prod.fst eq).symm.trans got)
    have member : x' ∈ s.level p := by simp [split]
    rw [holds.levels p lowest.1] at member
    obtain rfl : prio x' = p := of_decide_eq_true (List.mem_filter.mp member).2
    have apart := (List.nodup_append.mp (split ▸ once)).2.1
    have not_older : x' ∉ older := fun member => lt_irrefl _ (larger x' member)
    obtain ⟨rfl, -, -⟩ :=
      (List.append_cons_inj_of_notMem not_older (List.nodup_cons.mp apart).1).mp
        (split.symm.trans level)
    exact larger

/-- A process that is not served stays at its level, where nothing gets ahead of it. -/
theorem Serves.in_turn (serves : Serves prio priority pool taken s') (holds : Holds prio pool s)
    {x : α} (inside : prio x < maxPrio) {ahead behind : List α}
    (level : s.level (prio x) = ahead ++ x :: behind) (waits : x ∉ taken) :
    ∃ ahead' behind', s'.level (prio x) = ahead' ++ x :: behind' ∧
      (∀ y ∈ taken, ¬ Better prio priority x y) ∧
      taken.filter (fun y => prio y = prio x ∧ priority y = priority x) ++
          ahead'.filter (fun y => priority y = priority x) =
        ahead.filter fun y => priority y = priority x := by
  obtain ⟨events, pool', run, rfl, holds'⟩ := serves
  rw [holds.levels _ inside] at level
  obtain ⟨before, after, rfl, here, rfl, -⟩ := PriorityPool.split_of_filter level
  obtain ⟨before', after', rfl, none_worse, first⟩ := run.in_turn waits
  have tied : ∀ list : List α, list.filter (IncompRel (Better prio priority) x ·) =
      list.filter fun y => prio y = prio x ∧ priority y = priority x := fun list =>
    List.filter_congr fun y _ => decide_eq_decide.mpr incompRel_better
  have at_level : ∀ list : List α,
      (list.filter fun y => prio y = prio x ∧ priority y = priority x) =
        (list.filter fun y => prio y = prio x).filter fun y => priority y = priority x := by
    intro list
    rw [List.filter_filter]
    exact List.filter_congr fun y _ => (Bool.decide_and _ _).trans (Bool.and_comm _ _)
  rw [tied, tied, tied, at_level before', at_level before] at first
  refine ⟨before'.filter fun y => prio y = prio x, after'.filter fun y => prio y = prio x, ?_,
    none_worse, first⟩
  rw [holds'.levels _ inside, List.filter_append,
    List.filter_cons_of_pos (p := fun y => prio y = prio x) here]

end Sched

namespace Os
variable {cfg : Config} {s s' : Os cfg} {c : Fin cfg.numCpus} {pool : List Nat}

/-- The next step of the CPU is a call of get_proc. -/
def Asks (s : Os cfg) (c : Fin cfg.numCpus) : Prop :=
  (s.cpu c).loc = .top ∧ (s.cpu c).proc = none ∨ (s.cpu c).loc = .afterFinish ∨
    (s.cpu c).loc = .afterPut

instance (s : Os cfg) (c : Fin cfg.numCpus) : Decidable (s.Asks c) :=
  inferInstanceAs (Decidable (_ ∨ _))

/-- The process that get_proc returns in a CPU's own step. -/
def taken (s : Os cfg) (c : Fin cfg.numCpus) : List Nat :=
  if s.Asks c then (s.sched.getMlqProc cfg.priority).1.toList else []

/-- A CPU's own step asks the pool for a process, or puts one into it, or does neither. -/
theorem CpuMove.serves (move : CpuMove s c s') (holds : Sched.Holds cfg.prio pool s.sched)
    (inside : ∀ p, (s.cpu c).held = some p → cfg.prio p < maxPrio) :
    Sched.Serves cfg.prio cfg.priority pool (s.taken c) s'.sched := by
  have silent : ¬ s.Asks c → s'.sched = s.sched →
      Sched.Serves cfg.prio cfg.priority pool (s.taken c) s'.sched := by
    intro silent sched
    rw [taken, if_neg silent, sched]
    exact holds.serves cfg.priority
  have get : s.Asks c → s'.sched = (s.sched.getMlqProc cfg.priority).2 →
      Sched.Serves cfg.prio cfg.priority pool (s.taken c) s'.sched := by
    intro asks sched
    rw [taken, if_pos asks, sched]
    exact holds.get cfg.priority
  cases move with
  | load here none => exact get (.inl ⟨here, none⟩) rfl
  | afterFinish here => exact get (.inr (.inl here)) rfl
  | afterPut here => exact get (.inr (.inr here)) rfl
  | @expire p here has =>
      rw [taken, if_neg (by simp [Asks, here, has])]
      refine holds.enqueue cfg.priority (inside p ?_)
      rw [Cpu.held_eq (by rw [here]; nofun) (by rw [here]; nofun), has]
  | report here has | resume here has => exact silent (by simp [Asks, here, has]) rfl
  | stop here | skip here | dispatch here | proceed here =>
      exact silent (by simp [Asks, here]) rfl
  | @run p here => exact silent (by simp [Asks, here]) (s.run_frame c p).1

end Os

namespace Machine
variable {cfg : Config} {m m' : Machine cfg} {pool : List Nat} {p : Nat}

/-- The process that get_proc returns in a step. -/
def taken (m : Machine cfg) (a : MachineAction cfg.numCpus) (_ : Machine cfg) : List Nat :=
  match a with
  | .work (.cpu c) => m.os.taken c
  | _ => []

theorem taken_reverse (m : Machine cfg) (a : MachineAction cfg.numCpus) (m' : Machine cfg) :
    (m.taken a m').reverse = m.taken a m' := by
  unfold taken Os.taken
  split
  · split
    · cases (m.os.sched.getMlqProc cfg.priority).1 <;> rfl
    · rfl
  · rfl

theorem taken_eq_some {a : MachineAction cfg.numCpus} (taken : p ∈ m.taken a m') :
    (m.os.sched.getMlqProc cfg.priority).1 = some p := by
  unfold Machine.taken Os.taken at taken
  split at taken
  · split at taken
    · exact Option.mem_toList.mp taken
    · cases taken
  · cases taken

/-- The step lemma for the pool. -/
theorem step_serves (prio : ∀ p < cfg.numProcesses, cfg.prio p < maxPrio)
    (reach : Reach step (init cfg) m) (holds : Sched.Holds cfg.prio pool m.os.sched)
    {a : MachineAction cfg.numCpus} (h : m.step a = some m') :
    Sched.Serves cfg.prio cfg.priority pool (m.taken a m') m'.os.sched := by
  have added := added_le (reach.tail h)
  cases step_move h with
  | work moved =>
      cases Os.step_move moved with
      | cpu move =>
          refine move.serves holds fun p has => prio p ?_
          exact ((reach_coupled reach).held_added has).trans_le (added_le reach)
      | loader move =>
          cases move with
          | add => exact holds.enqueue cfg.priority (prio _ (Nat.lt_of_succ_le added))
          | _ => exact holds.serves cfg.priority
  | alone => exact holds.serves cfg.priority
  | call _ moved | ret _ _ moved | detach _ moved =>
      cases Os.step_move moved <;> exact holds.serves cfg.priority

theorem reach_holds (prio : ∀ p < cfg.numProcesses, cfg.prio p < maxPrio)
    (reach : Reach step (init cfg) m) : ∃ pool, Sched.Holds cfg.prio pool m.os.sched := by
  have both := reach.invariant
    (P := fun m => Reach step (init cfg) m ∧ ∃ pool, Sched.Holds cfg.prio pool m.os.sched)
    (fun m a m' ⟨reach, pool, holds⟩ h => by
      obtain ⟨_, pool', _, _, holds'⟩ := step_serves prio reach holds h
      exact ⟨reach.tail h, pool', holds'⟩)
    ⟨.refl _, [], .init rfl⟩
  exact both.2

/-- The run lemma: what the CPUs take from the queues is what the pool serves. -/
theorem run_serves (prio : ∀ p < cfg.numProcesses, cfg.prio p < maxPrio)
    (reach : Reach step (init cfg) m) (holds : Sched.Holds cfg.prio pool m.os.sched)
    {as : List (MachineAction cfg.numCpus)} {record : List Nat}
    (runs : run (recorded step taken) (m, []) as = some (m', record)) :
    Sched.Serves cfg.prio cfg.priority pool record.reverse m'.os.sched := by
  have both := run_beside_record
    (P := fun m record => Reach step (init cfg) m ∧
      Sched.Serves cfg.prio cfg.priority pool record.reverse m.os.sched)
    (fun m a m' record ⟨reach, serves⟩ h => by
      refine ⟨reach.tail h, ?_⟩
      rw [List.reverse_append, taken_reverse]
      exact serves.trans fun pool' holds => step_serves prio reach holds h)
    runs ⟨reach, holds.serves cfg.priority⟩
  exact both.2

/-- While a process waits, whatever the order of the steps: none that it goes before is taken, and
of those with its prio and priority each is taken once at most, all of them in the order in which
they were ahead of it when it began to wait. When it is taken itself, they all have been. -/
theorem waits_in_turn (prio : ∀ p < cfg.numProcesses, cfg.prio p < maxPrio)
    (reach : Reach step (init cfg) m) (inside : p < cfg.numProcesses) {ahead behind : List Nat}
    (level : m.os.sched.level (cfg.prio p) = ahead ++ p :: behind)
    {as : List (MachineAction cfg.numCpus)} {record : List Nat}
    (runs : run (recorded step taken) (m, []) as = some (m', record)) (waits : p ∉ record) :
    (∀ q ∈ record, cfg.prio q < cfg.prio p ∨
      cfg.prio q = cfg.prio p ∧ cfg.priority p ≤ cfg.priority q) ∧
    (record.filter (cfg.Tied p)).Nodup ∧
    (∃ ahead' behind', m'.os.sched.level (cfg.prio p) = ahead' ++ p :: behind' ∧
      record.reverse.filter (cfg.Tied p) ++
          ahead'.filter (fun q => cfg.priority q = cfg.priority p) =
        ahead.filter fun q => cfg.priority q = cfg.priority p) ∧
    ∀ a m'', m'.step a = some m'' → p ∈ m'.taken a m'' →
      record.reverse.filter (cfg.Tied p) =
        ahead.filter fun q => cfg.priority q = cfg.priority p := by
  obtain ⟨pool, holds⟩ := reach_holds prio reach
  obtain ⟨ahead', behind', level', none_worse, first⟩ :=
    (run_serves prio reach holds runs).in_turn holds (prio p inside) level (by simpa using waits)
  refine ⟨fun q taken => ?_, ?_, ⟨ahead', behind', level', first⟩, fun a m'' _ taken => ?_⟩
  · have not_worse := none_worse q (List.mem_reverse.mpr taken)
    unfold Sched.Better at not_worse
    omega
  · have once := (reach_coupled reach).exclusive.slots _ (prio p inside)
    rw [level] at once
    have tied := (List.nodup_append.mp once).1.filter fun q => cfg.priority q = cfg.priority p
    rw [← first] at tied
    have reversed := (List.nodup_append.mp tied).1
    rwa [List.filter_reverse, List.nodup_reverse] at reversed
  · have reach' : Reach step (init cfg) m' :=
      reach.trans ⟨as, by rw [← run_recorded Machine.taken m [], runs]; rfl⟩
    obtain ⟨pool', holds'⟩ := reach_holds prio reach'
    have once := (reach_coupled reach').exclusive.slots _ (prio p inside)
    have smaller := holds'.get_first level' once (taken_eq_some taken)
    have none_ahead : ahead'.filter (fun q => cfg.priority q = cfg.priority p) = [] :=
      List.filter_eq_nil_iff.mpr fun q member => by simpa using (smaller q member).ne
    rwa [none_ahead, List.append_nil] at first

/-- One CPU with slots of two instructions, and three processes of three, all of them alike. -/
def trio : Config where
  timeSlot := 2
  numCpus := 1
  numProcesses := 3
  ldProcesses := fun _ => ⟨0, 0, 0, List.replicate 3 ⟨.calc, 0, 0, 0⟩⟩

instance : NeZero trio.numCpus := ⟨Nat.succ_ne_zero _⟩

def trioRound (threads : List (Thread trio.numCpus)) : List (MachineAction trio.numCpus) :=
  List.flatten [threads.map fun t => .timer (.nextSlot t), List.replicate 7 (.timer .timer),
    threads.map fun t => .timer (.test t)]

def trioWorks (k : Nat) : List (MachineAction trio.numCpus) := List.replicate k (.work (.cpu 0))

/-- The first process has had its two slots, and is put back behind the other two. -/
def trioFirst : List (MachineAction trio.numCpus) :=
  let adds : List (MachineAction trio.numCpus) := List.replicate 2 (.work .loader)
  let round := trioRound [.loader, .cpu 0]
  List.flatten [adds, trioWorks 3, round, adds, trioWorks 3, round, adds, trioWorks 1]

/-- The other two have theirs. -/
def trioRest : List (MachineAction trio.numCpus) :=
  List.flatten [trioWorks 3, trioRound [.loader, .cpu 0], [.work .loader, .timer (.detach .loader)],
    trioWorks 3, trioRound [.cpu 0], trioWorks 4, trioRound [.cpu 0], trioWorks 3,
    trioRound [.cpu 0], trioWorks 1]

theorem trio_runs : ∃ m ∈ run step (init trio) trioFirst,
    m.os.sched.level 0 = [1, 2] ++ 0 :: [] ∧ m.timer.currentTime = 2 ∧
    ∃ r ∈ run (recorded step taken) (m, []) trioRest, r.2 = [2, 1] ∧ r.1.timer.currentTime = 6 ∧
      ∃ m'' ∈ r.1.step (.work (.cpu 0)), 0 ∈ r.1.taken (.work (.cpu 0)) m'' := by
  decide +kernel

/-- The other two go first, each once, and then it is taken again. -/
theorem waits_in_turn_trio : ∃ m m' : Machine trio, Reach step (init trio) m ∧
    m.os.sched.level 0 = [1, 2] ++ 0 :: [] ∧
    run (recorded step taken) (m, []) trioRest = some (m', [2, 1]) ∧
    ([2, 1].filter (trio.Tied 0)).Nodup ∧
    [2, 1].reverse.filter (trio.Tied 0) = [1, 2].filter (fun q => trio.priority q = 0) := by
  obtain ⟨m, through, level, -, ⟨m', record⟩, runs, rfl, -, m'', next, taken⟩ := trio_runs
  obtain ⟨-, once, -, first⟩ :=
    waits_in_turn (by decide) ⟨_, through⟩ (p := 0) (by decide) level runs (by decide)
  exact ⟨m, m', ⟨_, through⟩, level, runs, once, first _ m'' next taken⟩

end Machine
end OsSim
