import Mathlib.Data.List.Nodup
import OsSim.Os

/-! The life of a process. Abstractly a process is in exactly one place, so two owners
cannot even be written down; the concrete state is related to that by `Tracks`. -/
namespace OsSim
open Transition

/-- The one place a process is in. -/
inductive Stage (n : Nat) where
  | unborn
  | waiting
  | held (c : Fin n)
  | finished
  | lost

/-- The process a CPU goes on with. After the report, and after put_proc, the pointer is
stale: the next statement of cpu_routine overwrites it. -/
def Cpu.held (u : Cpu) : Option Nat :=
  match u.loc with
  | .afterFinish | .afterPut => none
  | _ => u.proc

theorem Cpu.held_eq {u : Cpu} (h : u.loc ≠ .afterFinish) (h' : u.loc ≠ .afterPut) :
    u.held = u.proc := by
  unfold held
  split
  · exact absurd ‹_› h
  · exact absurd ‹_› h'
  · rfl

theorem CpuLoc.after_held {k : TimerCall} {loc loc' : CpuLoc} (h : loc.after k = some loc')
    (proc : Option Nat) (left left' : Int) :
    Cpu.held ⟨loc', proc, left⟩ = Cpu.held ⟨loc, proc, left'⟩ := by
  cases k <;> cases loc <;> cases h <;> rfl

namespace Os
variable {cfg : Config}

def Finished (s : Os cfg) (p : Nat) : Prop := ∃ c, Event.finished c p ∈ s.log

instance (s : Os cfg) (p : Nat) : Decidable (s.Finished p) :=
  inferInstanceAs (Decidable (∃ c, Event.finished c p ∈ s.log))

/-- The concrete state shows every process at its place, and nowhere else. -/
structure Tracks (st : Nat → Stage cfg.numCpus) (s : Os cfg) : Prop where
  static : s.sched.currentPrio = 0
  unborn : ∀ p, st p = .unborn ↔ s.ld.i ≤ p
  nodup : ∀ l < maxPrio, (s.sched.level l).Nodup
  waiting : ∀ l < maxPrio, ∀ p, p ∈ s.sched.level l ↔ st p = .waiting ∧ cfg.prio p = l
  held : ∀ c p, (s.cpu c).held = some p ↔ st p = .held c
  finished : ∀ p, s.Finished p ↔ st p = .finished
  ready : s.ld.loc = .ready → s.ld.i < cfg.numProcesses
  added : s.ld.i ≤ cfg.numProcesses

theorem Tracks.init : Tracks (fun _ => Stage.unborn) (init cfg) where
  static := rfl
  unborn p := ⟨fun _ => Nat.zero_le p, fun _ => rfl⟩
  nodup l h := by simp [Os.init, Sched.initScheduler_level _ h]
  waiting l h p := by simp [Os.init, Sched.initScheduler_level _ h]
  held c p := by simp [Os.init, Cpu.held]
  finished p := by simp [Finished, Os.init]
  ready h := nomatch h
  added := Nat.zero_le _

/-- The process the labelled step would enqueue, as put_proc or add_proc. -/
def enqueues (s : Os cfg) : OsAction cfg.numCpus → Option Nat
  | .work (.cpu c) =>
      if (s.cpu c).loc = .top ∧ (s.cpu c).timeLeft = 0 then
        (s.cpu c).proc.filter fun p => s.pc p ≠ (cfg.code p).length
      else none
  | .work .loader => if s.ld.loc = .ready then some s.ld.i else none
  | .timer _ _ => none

/-- The step would enqueue a process on a level that has no slot left. -/
def MeetsFull (s : Os cfg) (a : OsAction cfg.numCpus) (p : Nat) : Prop :=
  s.enqueues a = some p ∧ s.sched.Full (cfg.prio p)

section Steps
variable {st : Nat → Stage cfg.numCpus} {s s' : Os cfg}

theorem Tracks.frame (t : Tracks st s) (sched : s'.sched = s.sched) (i : s'.ld.i = s.ld.i)
    (ready : s'.ld.loc = .ready → s.ld.i < cfg.numProcesses)
    (held : ∀ c, (s'.cpu c).held = (s.cpu c).held)
    (finished : ∀ p, s'.Finished p ↔ s.Finished p) : Tracks st s' where
  static := sched ▸ t.static
  unborn p := i ▸ t.unborn p
  nodup := sched ▸ t.nodup
  waiting := sched ▸ t.waiting
  held c p := by rw [held]; exact t.held c p
  finished p := (finished p).trans (t.finished p)
  ready h := i ▸ ready h
  added := i ▸ t.added

theorem Tracks.setCpu (t : Tracks st s) {c : Fin cfg.numCpus} {u : Cpu}
    (same : u.held = (s.cpu c).held) : Tracks st (s.setCpu c u) := by
  refine t.frame rfl rfl t.ready ?_ fun p => Iff.rfl
  intro d
  rw [setCpu_cpu]
  split
  · rename_i eq
    rw [same, eq]
  · rfl

theorem finished_note (s : Os cfg) (e : Event cfg.numCpus) (p : Nat) :
    (s.note e).Finished p ↔ s.Finished p ∨ ∃ c, e = .finished c p := by
  simp only [Finished, note_log, List.mem_cons]
  constructor
  · rintro ⟨c, rfl | old⟩
    · exact .inr ⟨c, rfl⟩
    · exact .inl ⟨c, old⟩
  · rintro (⟨c, old⟩ | ⟨c, rfl⟩)
    · exact ⟨c, .inr old⟩
    · exact ⟨c, .inl rfl⟩

theorem Tracks.note (t : Tracks st s) {e : Event cfg.numCpus} (other : ∀ c p, e ≠ .finished c p) :
    Tracks st (s.note e) := by
  refine t.frame rfl rfl t.ready (fun _ => rfl) ?_
  intro p
  rw [finished_note]
  exact or_iff_left fun ⟨c, eq⟩ => other c p eq

theorem Tracks.run (t : Tracks st s) (c : Fin cfg.numCpus) (p : Nat) : Tracks st (s.run c p) := by
  obtain ⟨sched, cpu, ld, _, ins, log⟩ := s.run_frame c p
  apply t.frame sched (by rw [ld]) (by rw [ld]; exact t.ready) (fun d => by rw [cpu])
  intro q
  simp [Finished, log]

/-- A step that moves one process to a place, and no other process at all. -/
theorem Tracks.move (t : Tracks st s) (x : Nat) {new : Stage cfg.numCpus}
    (born : new ≠ .unborn) (static : s'.sched.currentPrio = 0)
    (unborn : ∀ p, s'.ld.i ≤ p ↔ s.ld.i ≤ p ∧ p ≠ x)
    (nodup : ∀ l < maxPrio, (s'.sched.level l).Nodup)
    (waiting : ∀ l < maxPrio, ∀ p, p ∈ s'.sched.level l ↔
      if p = x then new = .waiting ∧ cfg.prio p = l else p ∈ s.sched.level l)
    (held : ∀ c p, (s'.cpu c).held = some p ↔
      if p = x then new = .held c else (s.cpu c).held = some p)
    (finished : ∀ p, s'.Finished p ↔ if p = x then new = .finished else s.Finished p)
    (ready : s'.ld.loc = .ready → s'.ld.i < cfg.numProcesses)
    (added : s'.ld.i ≤ cfg.numProcesses) : Tracks (Function.update st x new) s' := by
  refine ⟨static, fun p => ?_, nodup, fun l inside p => ?_, fun c p => ?_, fun p => ?_, ready,
    added⟩
  all_goals
    by_cases same : p = x
    · subst same
      simp [*]
  · rw [Function.update_of_ne same, unborn, t.unborn]
    exact ⟨fun h => ⟨h, same⟩, And.left⟩
  · rw [Function.update_of_ne same, waiting l inside, if_neg same]
    exact t.waiting l inside p
  · rw [Function.update_of_ne same, held, if_neg same]
    exact t.held c p
  · rw [Function.update_of_ne same, finished, if_neg same]
    exact t.finished p

theorem Tracks.born (t : Tracks st s) {x : Nat} (h : st x ≠ .unborn) (p : Nat) :
    s.ld.i ≤ p ↔ s.ld.i ≤ p ∧ p ≠ x := by
  have := (t.unborn x).not.mp h
  constructor
  · intro le
    exact ⟨le, by omega⟩
  · exact And.left

/-- A move between two places neither of which is the finished one. -/
theorem Tracks.unfinished (t : Tracks st s) {x : Nat} {new : Stage cfg.numCpus}
    (before : st x ≠ .finished) (after : new ≠ .finished)
    (same_log : ∀ p, s'.Finished p ↔ s.Finished p) (p : Nat) :
    s'.Finished p ↔ if p = x then new = .finished else s.Finished p := by
  rw [same_log]
  split
  · rename_i same
    subst same
    exact iff_of_false ((t.finished p).not.mpr before) after
  · exact Iff.rfl

/-- The levels after a process has been taken from one of them. -/
theorem Tracks.taken (t : Tracks st s) {l : Nat} (inside : l < maxPrio) {older newer : List Nat}
    {x : Nat} (level : s.sched.level l = older ++ x :: newer) {sched' : Sched Nat}
    (after : ∀ k, sched'.level k = if k = l then older ++ newer else s.sched.level k) {k : Nat}
    (below : k < maxPrio) :
    (sched'.level k).Nodup ∧ ∀ p, p ∈ sched'.level k ↔ p ≠ x ∧ p ∈ s.sched.level k := by
  have distinct : x ∉ older ++ newer ∧ (older ++ newer).Nodup :=
    List.nodup_cons.mp (List.nodup_middle.mp (level ▸ t.nodup l inside))
  rw [after]
  by_cases here : k = l
  · subst here
    rw [if_pos rfl, level]
    refine ⟨distinct.2, ?_⟩
    intro p
    by_cases same : p = x
    · simp only [same, distinct.1, ne_eq, not_true_eq_false, false_and]
    · simp [same]
  · rw [if_neg here]
    refine ⟨t.nodup k below, fun p => (and_iff_right_of_imp ?_).symm⟩
    rintro member rfl
    have on_l := (t.waiting l inside p).mp (by rw [level]; simp)
    exact here (((t.waiting k below p).mp member).2.symm.trans on_l.2)

/-- A CPU that holds nothing takes a process that no CPU holds. -/
theorem Tracks.held_enter (t : Tracks st s) {c : Fin cfg.numCpus} (free : (s.cpu c).held = none)
    {x : Nat} (away : ∀ d, st x ≠ .held d) {u : Cpu} (holds : u.held = some x)
    (d : Fin cfg.numCpus) (p : Nat) :
    ((s.setCpu c u).cpu d).held = some p ↔
      if p = x then Stage.held c = .held d else (s.cpu d).held = some p := by
  rw [setCpu_cpu]
  by_cases same : p = x
  · subst same
    have not_held : (s.cpu d).held ≠ some p := (t.held d p).not.mpr (away d)
    by_cases here : d = c
    · simp [here, holds]
    · simp [here, not_held, Ne.symm here]
  · rw [if_neg same]
    split
    · rename_i here
      rw [holds, here, free]
      simp [Ne.symm same]
    · exact Iff.rfl

/-- get_proc by a CPU that holds nothing: a waiting process becomes its own. -/
theorem Tracks.getProc (t : Tracks st s) {c : Fin cfg.numCpus} (free : (s.cpu c).held = none)
    (left : Int) (loc : Option Nat → CpuLoc)
    (out : ∀ r, loc r ≠ .afterFinish ∧ loc r ≠ .afterPut) :
    ∃ st', Tracks st' (s.getProc c left loc) ∧ ∀ p, st' p = .lost ↔ st p = .lost := by
  have holds : ∀ r, Cpu.held ⟨loc r, r, left⟩ = r := fun r => Cpu.held_eq (out r).1 (out r).2
  unfold Os.getProc
  rcases Sched.getMlqProc_cases cfg.priority t.static with
    ⟨_, eq⟩ | ⟨l, older, x, newer, sched', lowest, eq, static, level, after, _⟩
  · rw [eq]
    refine ⟨st, t.setCpu (s := s) ?_, fun _ => Iff.rfl⟩
    rw [holds, free]
  · rw [eq]
    have waits : st x = .waiting := ((t.waiting l lowest.1 x).mp (by rw [level]; simp)).1
    have levels := fun {k} => t.taken lowest.1 level after (k := k)
    refine ⟨Function.update st x (.held c), t.move x nofun static
      (t.born (by rw [waits]; nofun)) (fun k below => (levels below).1) (fun k below p => ?_)
      (t.held_enter free (by rw [waits]; nofun) (holds _))
      (t.unfinished (by rw [waits]; nofun) nofun fun _ => Iff.rfl) t.ready t.added, fun p => ?_⟩
    · refine ((levels below).2 p).trans ?_
      by_cases same : p = x
      · simp [same]
      · simp [same]
    · by_cases same : p = x
      · subst same
        simp [waits]
      · rw [Function.update_of_ne same]

/-- Where an enqueued process goes: it waits, or is lost when its level is full. -/
def enqueuedTo (s : Os cfg) (p : Nat) : Stage cfg.numCpus :=
  if s.sched.Full (cfg.prio p) then .lost else .waiting

theorem enqueuedTo_cases (s : Os cfg) (p : Nat) :
    s.enqueuedTo p = .lost ∧ s.sched.Full (cfg.prio p) ∨
      s.enqueuedTo p = .waiting ∧ ¬ s.sched.Full (cfg.prio p) := by
  unfold enqueuedTo
  split
  · exact .inl ⟨rfl, ‹_›⟩
  · exact .inr ⟨rfl, ‹_›⟩

theorem enqueuedTo_ne (s : Os cfg) (p : Nat) {place : Stage cfg.numCpus} (lost : .lost ≠ place)
    (waiting : .waiting ≠ place) : s.enqueuedTo p ≠ place := by
  unfold enqueuedTo
  split
  · exact lost
  · exact waiting

/-- The levels after an enqueue of a process that was on none of them. -/
theorem Tracks.enqueue (t : Tracks st s) {p : Nat} (away : st p ≠ .waiting) {l : Nat}
    (inside : l < maxPrio) :
    ((s.sched.addMlqProc cfg.prio p).level l).Nodup ∧ ∀ q,
      q ∈ (s.sched.addMlqProc cfg.prio p).level l ↔
        if q = p then s.enqueuedTo p = .waiting ∧ cfg.prio q = l else q ∈ s.sched.level l := by
  have absent : p ∉ s.sched.level l := fun member => away ((t.waiting l inside p).mp member).1
  rw [Sched.addMlqProc_level]
  constructor
  · split
    · exact (List.perm_append_singleton p _).nodup_iff.mpr
        (List.nodup_cons.mpr ⟨absent, t.nodup l inside⟩)
    · exact t.nodup l inside
  · intro q
    by_cases same : q = p
    · subst same
      rcases s.enqueuedTo_cases q with ⟨goes, full⟩ | ⟨goes, room⟩
      · have kept : ¬ (l = cfg.prio q ∧ ¬ s.sched.Full l) := fun h => h.2 (h.1 ▸ full)
        simp [goes, kept, absent]
      · by_cases here : l = cfg.prio q
        · subst here
          simp [goes, room]
        · simp [goes, here, absent, Ne.symm here]
    · rw [if_neg same]
      split
      · simp [same]
      · exact Iff.rfl

theorem Tracks.held_leave (t : Tracks st s) {c : Fin cfg.numCpus} {p : Nat}
    (has : st p = .held c) {u : Cpu} (drops : u.held = none) {new : Stage cfg.numCpus}
    (away : ∀ d, new ≠ .held d) (d : Fin cfg.numCpus) (q : Nat) :
    ((s.setCpu c u).cpu d).held = some q ↔
      if q = p then new = .held d else (s.cpu d).held = some q := by
  have holds : (s.cpu c).held = some p := (t.held c p).mpr has
  rw [setCpu_cpu]
  by_cases same : q = p
  · subst same
    rw [if_pos rfl]
    refine ⟨?_, fun h => absurd h (away d)⟩
    intro h
    split at h
    · rw [drops] at h
      cases h
    · rename_i other
      rw [t.held, has] at h
      exact absurd (Stage.held.inj h).symm other
  · rw [if_neg same]
    split
    · rename_i here
      rw [drops, here, holds]
      simp [Ne.symm same]
    · exact Iff.rfl

theorem Tracks.put (t : Tracks st s) {c : Fin cfg.numCpus} {p : Nat} (has : st p = .held c) :
    Tracks (Function.update st p (s.enqueuedTo p))
      ({ s with sched := s.sched.putMlqProc cfg.prio p }.setCpu c ⟨.afterPut, some p, 0⟩) := by
  have enqueued := fun {l} => t.enqueue (p := p) (l := l) (by rw [has]; nofun)
  exact t.move p (s.enqueuedTo_ne p nofun nofun) t.static (t.born (by rw [has]; nofun))
    (fun l h => (enqueued h).1) (fun l h => (enqueued h).2)
    (t.held_leave has rfl fun d => s.enqueuedTo_ne p nofun nofun)
    (t.unfinished (by rw [has]; nofun) (s.enqueuedTo_ne p nofun nofun) fun _ => Iff.rfl)
    t.ready t.added

theorem Tracks.report (t : Tracks st s) {c : Fin cfg.numCpus} {p : Nat} (has : st p = .held c)
    (left : Int) : Tracks (Function.update st p .finished)
      ((s.setCpu c ⟨.afterFinish, some p, left⟩).note (.finished c p)) := by
  refine t.move p nofun t.static (t.born (by rw [has]; nofun)) t.nodup (fun l inside q => ?_)
    (t.held_leave has rfl nofun) (fun q => ?_) t.ready t.added
  · by_cases same : q = p
    · subst same
      have absent : q ∉ s.sched.level l := by
        rw [t.waiting l inside, has]
        nofun
      simp [absent]
    · rw [if_neg same]
      exact Iff.rfl
  · rw [finished_note]
    by_cases same : q = p
    · subst same
      simp
    · rw [if_neg same]
      exact or_iff_left fun ⟨_, eq⟩ => same (Event.finished.inj eq).2.symm

theorem Tracks.add (t : Tracks st s) (here : s.ld.loc = .ready) :
    Tracks (Function.update st s.ld.i (s.enqueuedTo s.ld.i)) ({ s with
      sched := s.sched.addMlqProc cfg.prio s.ld.i, ld := ⟨.added, s.ld.i + 1⟩ }.note
        (.loaded s.ld.i)) := by
  have unborn : st s.ld.i = .unborn := (t.unborn _).mpr le_rfl
  have enqueued := fun {l} => t.enqueue (p := s.ld.i) (l := l) (by rw [unborn]; nofun)
  refine t.move s.ld.i (s.enqueuedTo_ne _ nofun nofun) t.static (fun p => ?_)
    (fun l h => (enqueued h).1) (fun l h => (enqueued h).2) (fun d p => ?_)
    (t.unfinished (by rw [unborn]; nofun) (s.enqueuedTo_ne _ nofun nofun) fun p => ?_) nofun
    (t.ready here)
  · change s.ld.i + 1 ≤ p ↔ _
    omega
  · change (s.cpu d).held = some p ↔ _
    split
    · rename_i same
      have not_held : (s.cpu d).held ≠ some p := by
        rw [Ne, t.held, same, unborn]
        nofun
      exact iff_of_false not_held (s.enqueuedTo_ne _ nofun nofun)
    · exact Iff.rfl
  · rw [finished_note]
    exact or_iff_left fun ⟨_, eq⟩ => nomatch eq

theorem lost_same {a : OsAction cfg.numCpus} (idle : s.enqueues a = none) (p : Nat) :
    st p = .lost ↔ st p = .lost ∨ s.MeetsFull a p := by
  refine (or_iff_left ?_).symm
  intro meets
  rw [MeetsFull, idle] at meets
  exact nomatch meets.1

theorem lost_enqueue {a : OsAction cfg.numCpus} {x : Nat} (enq : s.enqueues a = some x)
    (kept : st x ≠ .lost) (p : Nat) :
    Function.update st x (s.enqueuedTo x) p = .lost ↔ st p = .lost ∨ s.MeetsFull a p := by
  unfold MeetsFull
  rw [enq]
  by_cases same : p = x
  · subst same
    rw [Function.update_self]
    rcases s.enqueuedTo_cases p with ⟨goes, full⟩ | ⟨goes, room⟩
    · simp [goes, full]
    · simp [goes, room, kept]
  · rw [Function.update_of_ne same]
    simp [Ne.symm same]

/-- The step lemma: every step moves at most one process from one place to another, and
only an enqueue on a full level makes it vanish. -/
theorem Tracks.step (t : Tracks st s) {now : Nat} {a : OsAction cfg.numCpus}
    (h : s.step now a = some s') :
    ∃ st', Tracks st' s' ∧ ∀ p, st' p = .lost ↔ st p = .lost ∨ s.MeetsFull a p := by
  have has : ∀ {c p}, (s.cpu c).loc ≠ .afterFinish → (s.cpu c).loc ≠ .afterPut →
      (s.cpu c).proc = some p → st p = .held c := fun here here' proc =>
    (t.held _ _).mp ((Cpu.held_eq here here').trans proc)
  cases step_move h with
  | @cpu c _ move =>
      cases move with
      | load here none =>
          have idle : s.enqueues (.work (.cpu c)) = .none := by simp [enqueues, none]
          have free : (s.cpu c).held = .none := by simp [Cpu.held, here, none]
          obtain ⟨st', t', lost⟩ := t.getProc free (s.cpu c).timeLeft
            (fun r => if r.isNone then .slotDue else .recheck)
            (fun r => by cases r <;> exact ⟨nofun, nofun⟩)
          exact ⟨st', t', fun p => (lost p).trans (lost_same idle p)⟩
      | @report p here proc ended =>
          have idle : s.enqueues (.work (.cpu c)) = none := by simp [enqueues, proc, ended]
          have own := has (by rw [here]; nofun) (by rw [here]; nofun) proc
          refine ⟨_, t.report own _, ?_⟩
          intro q
          rw [← lost_same idle]
          by_cases same : q = p
          · subst same
            simp [own]
          · rw [Function.update_of_ne same]
      | @expire p here proc more left =>
          have own := has (by rw [here]; nofun) (by rw [here]; nofun) proc
          refine ⟨_, (t.put own).note nofun, lost_enqueue ?_ (by rw [own]; nofun)⟩
          simp [enqueues, here, left, proc, more]
      | resume here proc more left =>
          refine ⟨st, t.setCpu ?_, lost_same ?_⟩
          · simp [Cpu.held, here, proc]
          · simp [enqueues, left]
      | afterFinish here =>
          have idle : s.enqueues (.work (.cpu c)) = none := by simp [enqueues, here]
          have free : (s.cpu c).held = none := by simp [Cpu.held, here]
          obtain ⟨st', t', lost⟩ := t.getProc free 0 (fun _ => .recheck)
            fun _ => ⟨nofun, nofun⟩
          exact ⟨st', t', fun p => (lost p).trans (lost_same idle p)⟩
      | afterPut here =>
          have idle : s.enqueues (.work (.cpu c)) = none := by simp [enqueues, here]
          have free : (s.cpu c).held = none := by simp [Cpu.held, here]
          obtain ⟨st', t', lost⟩ := t.getProc free (s.cpu c).timeLeft (fun _ => .recheck)
            fun _ => ⟨nofun, nofun⟩
          exact ⟨st', t', fun p => (lost p).trans (lost_same idle p)⟩
      | stop here none _ =>
          refine ⟨st, (t.setCpu ?_).note nofun, lost_same ?_⟩
          · simp [Cpu.held, here, none]
          · simp [enqueues, here]
      | skip here none _ =>
          refine ⟨st, t.setCpu ?_, lost_same ?_⟩
          · simp [Cpu.held, here, none]
          · simp [enqueues, here]
      | dispatch here proc _ =>
          refine ⟨st, (t.setCpu ?_).note nofun, lost_same ?_⟩
          · simp [Cpu.held, here, proc]
          · simp [enqueues, here]
      | proceed here proc _ =>
          refine ⟨st, t.setCpu ?_, lost_same ?_⟩
          · simp [Cpu.held, here, proc]
          · simp [enqueues, here]
      | @run p here proc =>
          refine ⟨st, (t.run c p).setCpu ?_, lost_same ?_⟩
          · simp [(s.run_frame c p).2.1, Cpu.held, here, proc]
          · simp [enqueues, here]
  | loader move =>
      cases move with
      | early here _ _ =>
          refine ⟨st, t.frame rfl rfl nofun (fun _ => rfl) fun _ => Iff.rfl, lost_same ?_⟩
          simp [enqueues, here]
      | due here inside _ =>
          refine ⟨st, t.frame rfl rfl (fun _ => inside) (fun _ => rfl) fun _ => Iff.rfl,
            lost_same ?_⟩
          simp [enqueues, here]
      | finish here _ =>
          refine ⟨st, t.frame rfl rfl nofun (fun _ => rfl) fun _ => Iff.rfl, lost_same ?_⟩
          simp [enqueues, here]
      | add here =>
          refine ⟨_, t.add here, lost_enqueue ?_ ?_⟩
          · simp [enqueues, here]
          · rw [(t.unborn _).mpr le_rfl]
            nofun
  | cpuTimer after =>
      exact ⟨st, t.setCpu (CpuLoc.after_held after _ _ _), lost_same rfl⟩
  | @ldTimer k loc after =>
      refine ⟨st, t.frame rfl rfl ?_ (fun _ => rfl) fun _ => Iff.rfl, lost_same rfl⟩
      intro ready
      change loc = .ready at ready
      subst ready
      cases k <;> cases eq : s.ld.loc <;> rw [eq] at after <;> cases after

end Steps

/-- The run lemma: every reachable state is tracked. -/
theorem reach_tracks {s : Os cfg} (reach : Reach free (Os.init cfg) s) : ∃ st, Tracks st s :=
  reach.invariant (P := fun s => ∃ st, Tracks st s)
    (fun _ _ _ ⟨_, t⟩ h => (t.step h).imp fun _ moved => moved.1) ⟨_, .init⟩

end Os
end OsSim
