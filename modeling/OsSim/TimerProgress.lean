import OsSim.TimerBarrier

/-! No lost wake-up: a blocked timer waits for a device that has yet to raise a flag, a
blocked device has its flag up, and the timer leaves its loop only when every device
has detached. -/
namespace OsSim
open Transition
namespace Timer

variable {ι : Type*}

/-- The round's counters against the devices counted in it. A device that detaches
after it was counted makes the count of `fsh` too small, never too large. -/
structure Tally (s : Timer ι) (seen : List ι) : Prop where
  event : s.event = seen.length
  fsh : s.fsh ≤ seen.countP fun d => (s.dev d).fsh

/-- The devices counted in the round the timer is in, if it is in one. -/
def Counted (D : DevList ι) (s : Timer ι) (seen : List ι) : Prop :=
  match s.loc with
  | .top | .exited => False
  | .examine rest => D.devs = seen ++ rest
  | .waiting d rest => D.devs = seen ++ d :: rest
  | .release _ => seen = D.devs

structure Live (D : DevList ι) (s : Timer ι) : Prop where
  tally : ∀ seen, Counted D s seen → Tally s seen
  blocked : ∀ d rest, s.loc = .waiting d rest → (s.dev d).done = false ∧ (s.dev d).fsh = false
  stopped : s.timerStop = true → ∀ d, (s.dev d).loc = .detached
  exited : s.loc = .exited → ∀ d, (s.dev d).loc = .detached

theorem Live.init (D : DevList ι) : Live D (init : Timer ι) :=
  ⟨fun _ counted => False.elim counted, nofun, nofun, nofun⟩

theorem Tally.mono {s s' : Timer ι} {seen : List ι} (tally : Tally s seen)
    (event : s'.event = s.event) (fsh : s'.fsh = s.fsh)
    (grow : ∀ d, (s.dev d).fsh = true → (s'.dev d).fsh = true) : Tally s' seen := by
  refine ⟨event.trans tally.event, fsh ▸ tally.fsh.trans ?_⟩
  exact List.countP_mono_left fun d _ up => grow d up

/-- All were counted as finished exactly when the counters agree, so then all are. -/
theorem Tally.all_finished {s : Timer ι} {seen : List ι} (tally : Tally s seen)
    (agree : s.fsh = s.event) : ∀ d ∈ seen, (s.dev d).fsh = true := by
  have full : seen.countP (fun d => (s.dev d).fsh) = seen.length :=
    le_antisymm List.countP_le_length (by rw [← tally.event, ← agree]; exact tally.fsh)
  exact List.countP_eq_length.mp full

section Live
variable [DecidableEq ι] {D : DevList ι} {s s' : Timer ι}

theorem signalEvent_counted (d : ι) {seen : List ι} (h : Counted D (s.signalEvent d) seen) :
    Counted D s seen := by
  rcases s.signalEvent_cases d with same | ⟨rest, here, moved⟩
  · exact same ▸ h
  · rw [moved] at h
    simpa only [Counted, here] using h

theorem Live.setDev (live : Live D s) {d : ι} {x : Device}
    (grow : (s.dev d).fsh = true → x.fsh = true)
    (gone : (s.dev d).loc = .detached → x.loc = .detached)
    (flags : ∀ rest, s.loc = .waiting d rest → x.done = false ∧ x.fsh = false) :
    Live D (s.setDev d x) := by
  have left : ∀ e, (s.dev e).loc = .detached → ((s.setDev d x).dev e).loc = .detached :=
    fun _ => s.setDev_keeps (P := fun y => y.loc = .detached) gone
  refine ⟨fun seen counted => (live.tally seen counted).mono rfl rfl ?_, ?_,
    fun h e => left e (live.stopped h e), fun h e => left e (live.exited h e)⟩
  · exact fun _ => s.setDev_keeps (P := fun y => y.fsh = true) grow
  · intro e rest here
    rw [setDev_dev]
    split
    · rename_i same
      subst same
      exact flags rest here
    · exact live.blocked e rest here

/-- Raising a flag and signalling: the timer is not left blocked on that device. -/
theorem Live.raise (live : Live D s) {d : ι} {x : Device}
    (grow : (s.dev d).fsh = true → x.fsh = true)
    (gone : (s.dev d).loc = .detached → x.loc = .detached) :
    Live D ((s.setDev d x).signalEvent d) := by
  have left : ∀ e, (s.dev e).loc = .detached → ((s.setDev d x).dev e).loc = .detached :=
    fun _ => s.setDev_keeps (P := fun y => y.loc = .detached) gone
  have not_exited : ((s.setDev d x).signalEvent d).loc = .exited → s.loc = .exited := by
    intro h
    rcases (s.setDev d x).signalEvent_cases d with same | ⟨rest, _, moved⟩
    · rwa [same] at h
    · rw [moved] at h
      cases h
  refine ⟨?_, ?_, ?_, ?_⟩
  · intro seen counted
    have before := live.tally seen (signalEvent_counted (s := s.setDev d x) d counted)
    rcases (s.setDev d x).signalEvent_cases d with same | ⟨rest, _, moved⟩
    all_goals
      apply before.mono (by simp only [*]; rfl) (by simp only [*]; rfl)
      intro e up
      rw [signalEvent_dev]
      exact s.setDev_keeps (P := fun y => y.fsh = true) grow up
  · intro e rest here
    have other : e ≠ d := by
      rintro rfl
      exact signalEvent_not_waiting _ _ _ here
    rcases (s.setDev d x).signalEvent_cases d with same | ⟨rest', _, moved⟩
    · rw [same] at here ⊢
      rw [setDev_dev, if_neg other]
      exact live.blocked e rest here
    · rw [moved] at here
      cases here
  · intro h e
    rw [signalEvent_dev]
    exact left e (live.stopped (by simpa using h) e)
  · intro h e
    rw [signalEvent_dev]
    exact left e (live.exited (not_exited h) e)

theorem Live.round (live : Live D s) (sync : Sync D s) (move : RoundMove D s s') :
    Live D s' := by
  obtain ⟨tally, blocked, stopped, exited⟩ := live
  cases move with
  | leave _ stop =>
      exact ⟨fun _ counted => False.elim counted, by simp, stopped, fun _ => stopped stop⟩
  | start =>
      refine ⟨?_, by simp, stopped, by simp⟩
      intro seen counted
      have none_seen : seen = [] := by simpa [Counted] using counted
      subst none_seen
      exact ⟨rfl, le_rfl⟩
  | tick here =>
      refine ⟨?_, by simp, stopped, by simp⟩
      intro seen counted
      have all_seen : Counted D s seen := by
        simp only [Counted, here]
        exact (counted : seen = D.devs) ▸ (List.append_nil _).symm
      exact (tally seen all_seen).mono rfl rfl fun _ up => up
  | @count d rest here =>
      refine ⟨?_, by simp, stopped, by simp⟩
      intro seen counted
      -- the device just counted is the last one seen
      have split_list : D.devs = seen ++ rest := counted
      have suffix := sync.suffix
      simp only [remaining, here] at suffix
      obtain ⟨before, whole⟩ := suffix
      have last : seen = before ++ [d] := by
        have same : seen ++ rest = before ++ [d] ++ rest := by
          rw [← split_list, ← whole]
          simp
        exact List.append_cancel_right same
      have old := tally before (by simp only [Counted, here]; exact whole.symm)
      subst last
      refine ⟨by simp [old.event], ?_⟩
      have le := old.fsh
      simp only [List.countP_append, List.countP_singleton]
      split <;> simp_all
  | block here unanswered =>
      refine ⟨?_, ?_, stopped, by simp⟩
      · intro seen counted
        exact (tally seen (by simpa only [Counted, here] using counted)).mono rfl rfl
          fun _ up => up
      · intro e rest' waits
        obtain ⟨rfl, rfl⟩ := TimerLoc.waiting.inj waits
        simpa using unanswered
  | finish here agree =>
      refine ⟨fun _ counted => False.elim counted, by simp, stopped, ?_⟩
      intro _ d
      have finished := (tally D.devs (by simp only [Counted, here])).all_finished agree d (D.mem d)
      have ok := sync.devices d
      cases loc : (s.dev d).loc with
      | detached => rfl
      | working => exact absurd finished (by simp [(sync.working loc).2.2.2.1])
      | testing | waiting =>
          simp only [DevOk, loc] at ok
          exact absurd finished (by simp [ok.1])
  | again => exact ⟨fun _ counted => False.elim counted, by simp, stopped, by simp⟩
  | @release d rest here =>
      have keep : ∀ e, (s.dev e).fsh = true →
          ((s.setDev d (s.dev d).release).dev e).fsh = true := by
        intro e
        apply s.setDev_keeps (P := fun y => y.fsh = true)
        unfold Device.release Device.signal
        split <;> exact fun up => up
      refine ⟨?_, by simp, ?_, by simp⟩
      · intro seen counted
        exact (tally seen (by simpa only [Counted, here] using counted)).mono rfl rfl keep
      · intro stop e
        change ((s.setDev d (s.dev d).release).dev e).loc = .detached
        apply s.setDev_keeps (P := fun y => y.loc = .detached) _ (stopped stop e)
        intro at_end
        simp [Device.release, Device.signal, at_end]

theorem Live.step (live : Live D s) (sync : Sync D s) {a : TimerAction ι}
    (h : s.step D a = some s') : Live D s' := by
  cases step_move h with
  | timer move => exact live.round sync move
  | nextSlot here => exact live.raise (fun up => up) fun gone => by simp [here] at gone
  | @test d here =>
      refine live.setDev ?_ (fun gone => by simp [here] at gone) ?_
      · intro up
        unfold Device.test
        split <;> exact up
      · intro rest waits
        have flags := live.blocked d rest waits
        simp [Device.test, flags.1, flags.2]
  | detach here => exact live.raise (fun _ => rfl) fun _ => rfl
  | stop gone =>
      exact ⟨fun seen counted => (live.tally seen counted).mono rfl rfl fun _ up => up,
        live.blocked, fun _ => gone, live.exited⟩
  | spuriousTimer here =>
      refine ⟨?_, by simp, live.stopped, by simp⟩
      intro seen counted
      exact (live.tally seen (by simpa only [Counted, here] using counted)).mono rfl rfl
        fun _ up => up
  | @spurious d here =>
      refine live.setDev ?_ (fun gone => by simp [here] at gone) ?_
      · intro up
        simpa [Device.signal, here] using up
      · intro rest waits
        simpa [Device.signal, here] using live.blocked d rest waits

theorem reach_live (reach : Reach (step D) init s) : Sync D s ∧ Live D s :=
  reach.invariant (P := fun s => Sync D s ∧ Live D s)
    (fun _ _ _ both h => ⟨both.1.step h, both.2.step both.1 h⟩) ⟨Sync.init D, Live.init D⟩

end Live

/-- The labels that are a thread's own step: no stop_timer, no spurious wake-up. -/
def TimerAction.Own : TimerAction ι → Prop
  | .timer | .nextSlot _ | .test _ | .detach _ => True
  | .stop | .spuriousTimer | .spurious _ => False

/-- While a device is attached, the timer or some device can take a step without any
spurious wake-up; and a timer past its loop has left no device inside next_slot. -/
theorem never_stranded [DecidableEq ι] (D : DevList ι) {s : Timer ι}
    (reach : Reach (step D) init s) :
    ((∃ d, (s.dev d).loc ≠ .detached) →
      ∃ a, TimerAction.Own a ∧ (s.step D a).isSome = true) ∧
    (s.loc = .exited → ∀ d, (s.dev d).loc ≠ .testing ∧ (s.dev d).loc ≠ .waiting) := by
  obtain ⟨sync, live⟩ := reach_live reach
  have moves : ∀ d, (s.dev d).loc = .working ∨ (s.dev d).loc = .testing →
      ∃ a, TimerAction.Own a ∧ (s.step D a).isSome = true := by
    rintro d (here | here)
    · exact ⟨.nextSlot d, trivial, by simp [Timer.step, here]⟩
    · exact ⟨.test d, trivial, by simp [Timer.step, here]⟩
  constructor
  · rintro ⟨d, attached⟩
    cases at_timer : s.loc with
    | exited => exact absurd (live.exited at_timer d) attached
    | top =>
        refine ⟨.timer, trivial, ?_⟩
        simp only [Timer.step, Timer.timerStep, at_timer]
        split <;> rfl
    | release rest =>
        refine ⟨.timer, trivial, ?_⟩
        cases rest with
        | nil => simp only [Timer.step, Timer.timerStep, at_timer]; split <;> rfl
        | cons e rest => simp only [Timer.step, Timer.timerStep, at_timer]; rfl
    | examine rest =>
        refine ⟨.timer, trivial, ?_⟩
        cases rest with
        | nil => simp only [Timer.step, Timer.timerStep, at_timer]; rfl
        | cons e rest => simp only [Timer.step, Timer.timerStep, at_timer]; split <;> rfl
    | waiting e rest =>
        -- the device the timer is blocked on has no flag up, so it can move itself
        obtain ⟨down, unfinished⟩ := live.blocked e rest at_timer
        have ok := sync.devices e
        cases loc : (s.dev e).loc with
        | working => exact moves e (.inl loc)
        | testing => exact moves e (.inr loc)
        | waiting =>
            simp only [DevOk, loc] at ok
            exact absurd (ok.2.2.1 trivial) (by simp [down])
        | detached =>
            simp only [DevOk, loc] at ok
            exact absurd ok.1 (by simp [unfinished])
  · intro left d
    simp [live.exited left d]

/-- One device blocked in next_slot, the timer blocked on the other. -/
theorem never_stranded_two : ∃ s, Reach (step twoDevices) init s ∧
    (s.dev true).loc = .waiting ∧ s.timerStep twoDevices = none ∧
    ∃ a, TimerAction.Own a ∧ (s.step twoDevices a).isSome = true := by
  obtain ⟨s, reached, blocked, stands⟩ :
      ∃ s ∈ run (step twoDevices) init
          [.nextSlot true, .test true, .timer, .timer, .timer],
        (s.dev true).loc = .waiting ∧ (s.timerStep twoDevices).isNone = true := by
    decide
  exact ⟨s, ⟨_, reached⟩, blocked, Option.isNone_iff_eq_none.mp stands,
    (never_stranded twoDevices ⟨_, reached⟩).1 ⟨true, by rw [blocked]; nofun⟩⟩

end Timer
end OsSim
