import OsSim.Os

/-! The time slices of a CPU. time_left is 0 whenever the CPU holds no process, so a slice
always starts with the whole of time_slot; each round of the loop runs the process once and
lets one slot go by. -/
namespace OsSim
open Transition

/-- What a CPU does with the processes it is given, and each slot that goes by for it. -/
inductive Mark where
  | dispatched (p : Nat)
  | ran (p : Nat)
  | slot
  | putBack (p : Nat)
  | finished (p : Nat)
  deriving DecidableEq

/-- The mark of an event of the CPU. -/
def Event.mark {n : Nat} (c : Fin n) : Event n → Option Mark
  | .dispatched d p => if d = c then some (.dispatched p) else none
  | .ran d p _ => if d = c then some (.ran p) else none
  | .putBack d p => if d = c then some (.putBack p) else none
  | .finished d p => if d = c then some (.finished p) else none
  | .loaded _ | .stopped _ => none

/-- So many rounds of the loop, the newest first: a call of run, and the return of next_slot. -/
def slices (p : Nat) : Nat → List Mark
  | 0 => []
  | k + 1 => .slot :: .ran p :: slices p k

/-- Since it was dispatched the process has been run in so many slots, and no other has. -/
def Sliced (p k : Nat) (past : List Mark) : Prop :=
  ∃ before, past = slices p k ++ .dispatched p :: before

theorem Sliced.next {p k : Nat} {past : List Mark} (sliced : Sliced p k past) :
    Sliced p (k + 1) (.slot :: .ran p :: past) := by
  obtain ⟨before, rfl⟩ := sliced
  exact ⟨before, rfl⟩

/-- A process is put back after so many slots exactly, and has finished within them. -/
structure ExactSlices (timeSlot : Nat) (past : List Mark) : Prop where
  putBack : ∀ newer p older, past = newer ++ .putBack p :: older → Sliced p timeSlot older
  finished : ∀ newer p older, past = newer ++ .finished p :: older →
    ∃ k, 1 ≤ k ∧ k ≤ timeSlot ∧ Sliced p k older

section Exact
variable {timeSlot : Nat} {past : List Mark}

theorem ExactSlices.nil : ExactSlices timeSlot [] where
  putBack newer p older none := by simp at none
  finished newer p older none := by simp at none

theorem ExactSlices.cons {m : Mark} (exact : ExactSlices timeSlot past)
    (putBack : ∀ p, m = .putBack p → Sliced p timeSlot past)
    (finished : ∀ p, m = .finished p → ∃ k, 1 ≤ k ∧ k ≤ timeSlot ∧ Sliced p k past) :
    ExactSlices timeSlot (m :: past) where
  putBack newer p older split := by
    rcases List.cons_eq_append_iff.mp split with ⟨_, here⟩ | ⟨rest, _, later⟩
    · obtain ⟨rfl, rfl⟩ := List.cons.inj here
      exact putBack p rfl
    · exact exact.putBack rest p older later
  finished newer p older split := by
    rcases List.cons_eq_append_iff.mp split with ⟨_, here⟩ | ⟨rest, _, later⟩
    · obtain ⟨rfl, rfl⟩ := List.cons.inj here
      exact finished p rfl
    · exact exact.finished rest p older later

end Exact

namespace Os
variable {cfg : Config}

/-- The marks of a step for a CPU: the return of its next_slot, or what it has reported. -/
def marks (c : Fin cfg.numCpus) (s : Os cfg) (a : Nat × OsAction cfg.numCpus) (t : Os cfg) :
    List Mark :=
  if a.2 = .timer .ret (.cpu c) then [.slot]
  else (t.log.take (t.log.length - s.log.length)).filterMap (Event.mark c)

theorem work_ne {n : Nat} (d : Thread n) (c : Fin n) : OsAction.work d ≠ .timer .ret (.cpu c) := by
  intro same
  cases same

section Marks
variable {c : Fin cfg.numCpus} {s t : Os cfg} {now : Nat} {a : OsAction cfg.numCpus}

theorem marks_silent (other : a ≠ .timer .ret (.cpu c)) (log : t.log = s.log) :
    s.marks c (now, a) t = [] := by
  rw [marks, if_neg other, log, Nat.sub_self]
  rfl

theorem marks_event (other : a ≠ .timer .ret (.cpu c)) {e : Event cfg.numCpus}
    (log : t.log = e :: s.log) : s.marks c (now, a) t = (e.mark c).toList := by
  rw [marks, if_neg other, log, List.length_cons, Nat.add_sub_cancel_left]
  cases mark : e.mark c with
  | none => simp [mark]
  | some m => simp [mark]

/-- What a step of another thread reports is no mark of the CPU. -/
theorem CpuMove.marks_other {d : Fin cfg.numCpus} (move : CpuMove s d t) (other : d ≠ c) :
    s.marks c (now, .work (.cpu d)) t = [] := by
  have work := work_ne (.cpu d) c
  cases move with
  | load => exact marks_silent work rfl
  | report => exact (marks_event work rfl).trans (by simp [Event.mark, other])
  | expire => exact (marks_event work rfl).trans (by simp [Event.mark, other])
  | resume => exact marks_silent work rfl
  | afterFinish => exact marks_silent work rfl
  | afterPut => exact marks_silent work rfl
  | stop => exact (marks_event work rfl).trans (by simp [Event.mark])
  | skip => exact marks_silent work rfl
  | dispatch => exact (marks_event work rfl).trans (by simp [Event.mark, other])
  | proceed => exact marks_silent work rfl
  | @run p =>
      obtain ⟨_, _, _, _, ins, log⟩ := s.run_frame d p
      exact (marks_event work log).trans (by simp [Event.mark, other])

end Marks

/-- How far the slice of a CPU has come, by where the CPU stands. Where it holds no process
there is no time left. -/
def OnSlice (timeSlot : Nat) (past : List Mark) (u : Cpu) : Prop :=
  match u.loc, u.proc with
  | .top, some p => ∃ k, 1 ≤ k ∧ k ≤ timeSlot ∧ u.timeLeft = timeSlot - k ∧ Sliced p k past
  | .recheck, some p =>
      u.timeLeft = 0 ∨ ∃ k < timeSlot, u.timeLeft = timeSlot - k ∧ Sliced p k past
  | .running, some p => ∃ k < timeSlot, u.timeLeft = timeSlot - k ∧ Sliced p k past
  | .slotDue, some p | .inSlot, some p => ∃ k < timeSlot, ∃ older, past = .ran p :: older ∧
      u.timeLeft = timeSlot - k - 1 ∧ Sliced p k older
  | .afterFinish, _ | .leaving, _ | .detached, _ => True
  | _, _ => u.timeLeft = 0

structure InSlices (timeSlot : Nat) (c : Fin cfg.numCpus) (s : Os cfg) (past : List Mark) :
    Prop where
  onSlice : OnSlice timeSlot past (s.cpu c)
  exact : ExactSlices timeSlot past

section Steps
variable {timeSlot now : Nat} {c : Fin cfg.numCpus} {s t : Os cfg} {past : List Mark}

/-- A CPU with no time left may be given any process, or none. -/
theorem onSlice_getProc {left : Int} (none_left : left = 0) {loc : Option Nat → CpuLoc}
    (next : ∀ r, loc r = .recheck ∨ r = none ∧ loc r = .slotDue) :
    OnSlice timeSlot past ((s.getProc c left loc).cpu c) := by
  rw [getProc, setCpu_same, OnSlice]
  generalize (s.sched.getMlqProc cfg.priority).1 = r
  rcases next r with again | ⟨rfl, skipped⟩
  · rw [again]
    cases r with
    | none => exact none_left
    | some p => exact .inl none_left
  · rw [skipped]
    exact none_left

/-- A step that reports nothing of the CPU. -/
theorem InSlices.silent {a : OsAction cfg.numCpus} (nothing : s.marks c (now, a) t = [])
    {u : Cpu} (comes_to : t.cpu c = u) (on : OnSlice timeSlot past u)
    (exact_so_far : ExactSlices timeSlot past) :
    t.InSlices timeSlot c (s.marks c (now, a) t ++ past) := by
  rw [nothing]
  exact ⟨comes_to ▸ on, exact_so_far⟩

theorem InSlices.mark {a : OsAction cfg.numCpus} {m : Mark}
    (marked : s.marks c (now, a) t = [m]) {u : Cpu} (comes_to : t.cpu c = u)
    (on : OnSlice timeSlot (m :: past) u) (exact_so_far : ExactSlices timeSlot past)
    (putBack : ∀ p, m = .putBack p → Sliced p timeSlot past)
    (finished : ∀ p, m = .finished p → ∃ k, 1 ≤ k ∧ k ≤ timeSlot ∧ Sliced p k past) :
    t.InSlices timeSlot c (s.marks c (now, a) t ++ past) := by
  rw [marked]
  exact ⟨comes_to ▸ on, exact_so_far.cons putBack finished⟩

/-- The step lemma for the CPU's own steps. -/
theorem CpuMove.slices (move : CpuMove s c t) (slot : cfg.timeSlot = timeSlot)
    (pos : 1 ≤ timeSlot) (inside : s.InSlices timeSlot c past) :
    t.InSlices timeSlot c (s.marks c (now, .work (.cpu c)) t ++ past) := by
  have work := work_ne (.cpu c) c
  have marked : ∀ {e m}, t.log = e :: s.log → e.mark c = some m →
      s.marks c (now, .work (.cpu c)) t = [m] := by
    intro e m log mark
    rw [marks_event work log, mark]
    rfl
  obtain ⟨on, exact_so_far⟩ := inside
  unfold OnSlice at on
  cases move with
  | load here proc =>
      rw [here, proc] at on
      refine .silent (marks_silent work rfl) rfl (onSlice_getProc on fun r => ?_) exact_so_far
      cases r with
      | none => exact .inr ⟨rfl, rfl⟩
      | some p => exact .inl rfl
  | @report p here proc =>
      rw [here, proc] at on
      obtain ⟨k, some_run, bound, -, sliced⟩ := on
      refine .mark (marked rfl (if_pos rfl)) (s.setCpu_same c _) trivial exact_so_far nofun ?_
      rintro _ ⟨⟩
      exact ⟨k, some_run, bound, sliced⟩
  | @expire p here proc _ expired =>
      rw [here, proc] at on
      obtain ⟨k, -, bound, left, sliced⟩ := on
      obtain rfl : k = timeSlot := by omega
      refine .mark (marked rfl (if_pos rfl)) (setCpu_same _ c _) rfl exact_so_far ?_ nofun
      rintro _ ⟨⟩
      exact sliced
  | @resume p here proc _ going =>
      rw [here, proc] at on
      obtain ⟨k, -, bound, left, sliced⟩ := on
      refine .silent (marks_silent work rfl) (s.setCpu_same c _) (.inr ⟨k, ?_, left, sliced⟩)
        exact_so_far
      omega
  | afterFinish here =>
      exact .silent (marks_silent work rfl) rfl (onSlice_getProc rfl fun _ => .inl rfl) exact_so_far
  | afterPut here =>
      rw [here] at on
      exact .silent (marks_silent work rfl) rfl (onSlice_getProc on fun _ => .inl rfl) exact_so_far
  | stop here proc =>
      refine .silent ((marks_event work rfl).trans rfl) (s.setCpu_same c _) trivial exact_so_far
  | skip here proc =>
      rw [here, proc] at on
      exact .silent (marks_silent work rfl) (s.setCpu_same c _) on exact_so_far
  | @dispatch p here proc =>
      refine .mark (marked rfl (if_pos rfl)) (s.setCpu_same c _)
        ⟨0, pos, ?_, past, rfl⟩ exact_so_far nofun nofun
      rw [slot]
      simp
  | @proceed p here proc going =>
      rw [here, proc] at on
      exact .silent (marks_silent work rfl) (s.setCpu_same c _) (on.resolve_left going)
        exact_so_far
  | @run p here proc =>
      rw [here, proc] at on
      obtain ⟨k, bound, left, sliced⟩ := on
      obtain ⟨_, _, _, _, ins, log⟩ := s.run_frame c p
      exact .mark (marked log (if_pos rfl)) (setCpu_same _ c _)
        ⟨k, bound, past, rfl, by rw [left], sliced⟩ exact_so_far nofun nofun

theorem CpuLoc.after_cases {k : TimerCall} {loc loc' : CpuLoc} (h : loc.after k = some loc') :
    k = .call ∧ loc = .slotDue ∧ loc' = .inSlot ∨ k = .ret ∧ loc = .inSlot ∧ loc' = .top ∨
      k = .detach ∧ loc = .leaving ∧ loc' = .detached := by
  cases k <;> cases loc <;> cases h <;> simp

/-- The step lemma for timer.c: a slot goes by for the CPU when its next_slot returns. -/
theorem timer_slices {k : TimerCall} {loc : CpuLoc} (after : (s.cpu c).loc.after k = some loc)
    (inside : s.InSlices timeSlot c past) :
    InSlices timeSlot c (s.setCpu c ⟨loc, (s.cpu c).proc, (s.cpu c).timeLeft⟩)
      (s.marks c (now, .timer k (.cpu c))
        (s.setCpu c ⟨loc, (s.cpu c).proc, (s.cpu c).timeLeft⟩) ++ past) := by
  obtain ⟨on, exact_so_far⟩ := inside
  unfold OnSlice at on
  rcases CpuLoc.after_cases after with ⟨rfl, here, rfl⟩ | ⟨rfl, here, rfl⟩ | ⟨rfl, here, rfl⟩
  · refine .silent (marks_silent nofun rfl) (s.setCpu_same c _) ?_ exact_so_far
    rw [here] at on
    cases proc : (s.cpu c).proc with
    | none =>
        rw [proc] at on
        exact on
    | some p =>
        rw [proc] at on
        exact on
  · refine .mark (if_pos rfl) (s.setCpu_same c _) ?_ exact_so_far nofun nofun
    rw [here] at on
    cases proc : (s.cpu c).proc with
    | none =>
        rw [proc] at on
        exact on
    | some p =>
        rw [proc] at on
        obtain ⟨k, bound, older, rfl, left, sliced⟩ := on
        exact ⟨k + 1, Nat.succ_pos k, bound, by dsimp only; omega, sliced.next⟩
  · exact .silent (marks_silent nofun rfl) (s.setCpu_same c _) trivial exact_so_far

theorem step_slices (slot : cfg.timeSlot = timeSlot) (pos : 1 ≤ timeSlot)
    (inside : s.InSlices timeSlot c past) {a : OsAction cfg.numCpus} (h : s.step now a = some t) :
    t.InSlices timeSlot c (s.marks c (now, a) t ++ past) := by
  cases step_move h with
  | @cpu d _ move =>
      by_cases own : d = c
      · subst own
        exact move.slices slot pos inside
      · exact .silent (move.marks_other own) (move.frame.2.2 c (Ne.symm own)) inside.onSlice
          inside.exact
  | loader move =>
      cases move with
      | add =>
          refine .silent ?_ rfl inside.onSlice inside.exact
          exact (marks_event (work_ne .loader c) rfl).trans rfl
      | _ => exact .silent (marks_silent (work_ne .loader c) rfl) rfl inside.onSlice inside.exact
  | @cpuTimer k loc d after =>
      by_cases own : d = c
      · subst own
        exact timer_slices after inside
      · refine .silent (marks_silent ?_ rfl) ?_ inside.onSlice inside.exact
        · exact fun same => own (Thread.cpu.inj (OsAction.timer.inj same).2)
        · rw [setCpu_cpu, if_neg (Ne.symm own)]
  | ldTimer => exact .silent (marks_silent nofun rfl) rfl inside.onSlice inside.exact

theorem step_putBack {a : OsAction cfg.numCpus} (h : s.step now a = some t) {p : Nat}
    (log : t.log = .putBack c p :: s.log) : t.pc p ≠ (cfg.code p).length := by
  have silent : t.log ≠ s.log := fun same => List.cons_ne_self _ _ (log.symm.trans same)
  cases step_move h with
  | cpu move =>
      cases move with
      | @expire q _ _ more =>
          obtain ⟨event, -⟩ := List.cons.inj log
          obtain ⟨-, rfl⟩ := Event.putBack.inj event
          exact more
      | @run q =>
          obtain ⟨_, _, _, _, ins, ran⟩ := s.run_frame _ q
          cases (List.cons.inj (ran.symm.trans log)).1
      | report | stop | dispatch => cases (List.cons.inj log).1
      | _ => exact absurd rfl silent
  | loader move =>
      cases move with
      | add => cases (List.cons.inj log).1
      | _ => exact absurd rfl silent
  | cpuTimer => exact absurd rfl silent
  | ldTimer => exact absurd rfl silent

end Steps

/-- In every run, beside the marks of a CPU: a process that is put back has been run in
exactly time_slot slots since it was dispatched and is not at its end, and one that has
finished in at least one and at most so many. -/
theorem exact_slices (pos : 1 ≤ cfg.timeSlot) (c : Fin cfg.numCpus)
    {as : List (Nat × OsAction cfg.numCpus)} {s : Os cfg}
    (runs : Transition.run free (init cfg) as = some s) :
    ∃ past, Transition.run (recorded free (marks c)) (init cfg, []) as = some (s, past) ∧
      ExactSlices cfg.timeSlot.toNat past ∧
      ∀ a t p, free s a = some t → t.log = .putBack c p :: s.log →
        t.pc p ≠ (cfg.code p).length := by
  have slot : cfg.timeSlot = cfg.timeSlot.toNat := by omega
  obtain ⟨past, recorded_runs, inside⟩ := run_beside
    (P := fun s past => s.InSlices cfg.timeSlot.toNat c past)
    (fun s a t past inside step => step_slices slot (by omega) inside step)
    runs ⟨rfl, .nil⟩
  exact ⟨past, recorded_runs, inside.exact, fun a t p step log => step_putBack step log⟩

/-- One CPU with slots of two instructions, and a process of three. -/
def sliced : Config where
  timeSlot := 2
  numCpus := 1
  numProcesses := 1
  ldProcesses := fun _ => ⟨0, 0, 0, List.replicate 3 ⟨.calc, 0, 0, 0⟩⟩

instance : NeZero sliced.numCpus := ⟨Nat.succ_ne_zero _⟩

/-- The process is put back after two slots, dispatched again and finishes in the next one. -/
def slicedRun : List (Nat × OsAction sliced.numCpus) :=
  let loads : List (OsAction sliced.numCpus) := List.replicate 2 (.work .loader)
  let works (n : Nat) : List (OsAction sliced.numCpus) := List.replicate n (.work (.cpu 0))
  let slot : List (OsAction sliced.numCpus) := [.timer .call (.cpu 0), .timer .ret (.cpu 0)]
  (loads ++ works 3 ++ slot ++ works 3 ++ slot ++ works 4 ++ slot ++ works 1).map (0, ·)

theorem exact_slices_sliced : ∃ s past,
    Transition.run (recorded free (marks 0)) (init sliced, []) slicedRun = some (s, past) ∧
      past = [.finished 0, .slot, .ran 0, .dispatched 0, .putBack 0] ++ slices 0 2 ++
        [.dispatched 0] ∧
      ExactSlices 2 past := by
  obtain ⟨s, runs⟩ : ∃ s, Transition.run free (init sliced) slicedRun = some s :=
    Option.isSome_iff_exists.mp (by decide +kernel)
  obtain ⟨past, recorded_runs, exact_so_far, -⟩ := exact_slices (by decide) 0 runs
  refine ⟨s, past, recorded_runs, ?_, exact_so_far⟩
  have marked : (Transition.run (recorded free (marks 0)) (init sliced, []) slicedRun).map
      Prod.snd = some ([.finished 0, .slot, .ran 0, .dispatched 0, .putBack 0] ++ slices 0 2 ++
        [.dispatched 0]) := by decide +kernel
  rw [recorded_runs] at marked
  exact Option.some.inj marked

end Os
end OsSim
