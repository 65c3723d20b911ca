import OsSim.Timer

/-! The slot barrier. Each device is judged against the clock and against what the
timer still has to do with it in the current round. -/
namespace OsSim
open Transition
namespace Timer

variable {ι : Type*} [DecidableEq ι]

/-- What the timer has done with a device in its round: not counted it yet or released
it already, counted it as finished, or moved the clock past it without release. -/
inductive Mark where
  | fresh
  | counted
  | pending
  deriving DecidableEq

def mark (s : Timer ι) (d : ι) : Mark :=
  match s.loc with
  | .top | .exited => .fresh
  | .examine rest => if d ∈ rest then .fresh else .counted
  | .waiting e rest => if d ∈ e :: rest then .fresh else .counted
  | .release rest => if d ∈ rest then .pending else .fresh

/-- A device agrees with the clock: at work it has used all slots so far and is not
counted; in next_slot it is one call ahead until the clock moves, and its flag stays
up until it is released. -/
def DevOk (now : Nat) (m : Mark) (x : Device) : Prop :=
  match x.loc with
  | .working => x.done = false ∧ x.fsh = false ∧ x.calls = now ∧ x.returned = now ∧ m = .fresh
  | .testing | .waiting =>
      x.fsh = false ∧ x.returned + 1 = x.calls ∧ (x.loc = .waiting → x.done = true) ∧
      if x.done then x.calls = if m = .pending then now else now + 1
      else x.calls = now ∧ m = .fresh
  | .detached => x.fsh = true ∧ x.done = false

section DevOk
variable {now : Nat} {m : Mark} {x : Device}

theorem DevOk.nextSlot (ok : DevOk now m x) (here : x.loc = .working) :
    DevOk now m x.nextSlot := by
  simp only [DevOk, here] at ok
  obtain ⟨_, unfinished, calls, returned, rfl⟩ := ok
  simp [DevOk, Device.nextSlot, unfinished, calls, returned]

theorem DevOk.test (ok : DevOk now m x) (here : x.loc = .testing) : DevOk now m x.test := by
  simp only [DevOk, here] at ok
  obtain ⟨unfinished, ahead, _, calls⟩ := ok
  unfold Device.test
  split
  · rename_i up
    rw [if_pos up] at calls
    simp [DevOk, unfinished, ahead, up, calls]
  · rename_i down
    rw [if_neg down] at calls
    simp only [Bool.not_eq_true] at down
    refine ⟨down, unfinished, calls.1, ?_, calls.2⟩
    change x.returned + 1 = now
    omega

theorem DevOk.detach (ok : DevOk now m x) (here : x.loc = .working) : DevOk now m x.detach := by
  simp only [DevOk, here] at ok
  exact ⟨rfl, ok.1⟩

theorem DevOk.signal (ok : DevOk now m x) : DevOk now m x.signal := by
  unfold Device.signal
  split
  · rename_i here
    simp only [DevOk, here] at ok
    exact ⟨ok.1, ok.2.1, nofun, ok.2.2.2⟩
  · exact ok

theorem DevOk.count (ok : DevOk now .fresh x) (answered : (x.done || x.fsh) = true) :
    DevOk now .counted x := by
  cases here : x.loc with
  | working =>
      simp only [DevOk, here] at ok
      simp [ok.1, ok.2.1] at answered
  | detached => simpa only [DevOk, here] using ok
  | testing | waiting =>
      simp only [DevOk, here] at ok ⊢
      obtain ⟨unfinished, ahead, blocked, calls⟩ := ok
      have up : x.done = true := by simpa [unfinished] using answered
      refine ⟨unfinished, ahead, blocked, ?_⟩
      simpa [up] using calls

theorem DevOk.tick (ok : DevOk now .counted x) : DevOk (now + 1) .pending x := by
  cases here : x.loc with
  | working => simp [DevOk, here] at ok
  | detached => simpa only [DevOk, here] using ok
  | testing | waiting =>
      simp only [DevOk, here] at ok ⊢
      obtain ⟨unfinished, ahead, blocked, calls⟩ := ok
      refine ⟨unfinished, ahead, blocked, ?_⟩
      cases up : x.done with
      | false => simp [up] at calls
      | true => simpa [up] using calls

theorem DevOk.release (ok : DevOk now .pending x) : DevOk now .fresh x.release := by
  cases here : x.loc with
  | working => simp [DevOk, here] at ok
  | detached =>
      simp only [DevOk, here] at ok
      simp [DevOk, Device.release, Device.signal, here, ok.1]
  | testing | waiting =>
      simp only [DevOk, here] at ok
      obtain ⟨unfinished, ahead, _, calls⟩ := ok
      cases up : x.done with
      | false => simp [up] at calls
      | true =>
          have used : x.calls = now := by simpa [up] using calls
          simp [DevOk, Device.release, Device.signal, here, unfinished, ahead, used]

end DevOk

/-- The barrier invariant: the timer walks its list in order and every device agrees. -/
structure Sync (D : DevList ι) (s : Timer ι) : Prop where
  suffix : s.remaining <:+ D.devs
  devices : ∀ d, DevOk s.time (s.mark d) (s.dev d)

theorem Sync.init (D : DevList ι) : Sync D (init : Timer ι) :=
  ⟨List.nil_suffix, fun _ => ⟨rfl, rfl, rfl, rfl, rfl⟩⟩

theorem signalEvent_remaining (s : Timer ι) (d : ι) :
    (s.signalEvent d).remaining = s.remaining := by
  rcases s.signalEvent_cases d with same | ⟨rest, here, moved⟩
  · rw [same]
  · rw [moved]
    simp only [remaining, here]

theorem signalEvent_mark (s : Timer ι) (d e : ι) : (s.signalEvent d).mark e = s.mark e := by
  rcases s.signalEvent_cases d with same | ⟨rest, here, moved⟩
  · rw [same]
  · rw [moved]
    simp only [mark, here]

section Sync
variable {D : DevList ι} {s s' : Timer ι}

theorem Sync.setDev (sync : Sync D s) {d : ι} {x : Device} (ok : DevOk s.time (s.mark d) x) :
    Sync D (s.setDev d x) := by
  refine ⟨sync.suffix, ?_⟩
  intro e
  rw [setDev_dev]
  split
  · rename_i same
    exact same ▸ ok
  · exact sync.devices e

theorem Sync.signalEvent (sync : Sync D s) (d : ι) : Sync D (s.signalEvent d) := by
  constructor
  · rw [signalEvent_remaining]
    exact sync.suffix
  · intro e
    rw [signalEvent_mark, signalEvent_dev, signalEvent_time]
    exact sync.devices e

theorem Sync.round (sync : Sync D s) (move : RoundMove D s s') : Sync D s' := by
  obtain ⟨suffix, devices⟩ := sync
  cases move with
  | leave here =>
      simp only [mark, here] at devices
      exact ⟨List.nil_suffix, devices⟩
  | start here =>
      simp only [mark, here] at devices
      exact ⟨List.suffix_rfl, fun d => by simpa [mark, D.mem d] using devices d⟩
  | tick here =>
      refine ⟨List.suffix_rfl, ?_⟩
      intro d
      have ok := devices d
      simp only [mark, here, List.not_mem_nil, if_false] at ok
      simpa [mark, D.mem d] using ok.tick
  | @count d rest here answered =>
      simp only [remaining, here] at suffix
      refine ⟨(List.suffix_cons d rest).trans suffix, ?_⟩
      intro e
      have ok := devices e
      simp only [mark, here, List.mem_cons] at ok ⊢
      by_cases same : e = d
      · subst same
        simp only [true_or, if_true] at ok
        simpa [D.head_not_mem suffix] using ok.count answered
      · simpa [same] using ok
  | block here =>
      simp only [remaining, here] at suffix
      exact ⟨suffix, fun e => by simpa only [mark, here] using devices e⟩
  | finish here | again here =>
      simp only [mark, here, List.not_mem_nil, if_false] at devices
      exact ⟨List.nil_suffix, devices⟩
  | @release d rest here =>
      simp only [remaining, here] at suffix
      refine ⟨(List.suffix_cons d rest).trans suffix, ?_⟩
      intro e
      have ok := devices e
      simp only [mark, here, List.mem_cons] at ok ⊢
      rw [setDev_dev]
      by_cases same : e = d
      · subst same
        simp only [true_or, if_true] at ok
        simpa [D.head_not_mem suffix] using ok.release
      · simpa [same] using ok

theorem Sync.step (sync : Sync D s) {a : TimerAction ι} (h : s.step D a = some s') :
    Sync D s' := by
  cases step_move h with
  | timer move => exact sync.round move
  | nextSlot here => exact (sync.setDev ((sync.devices _).nextSlot here)).signalEvent _
  | test here => exact sync.setDev ((sync.devices _).test here)
  | detach here => exact (sync.setDev ((sync.devices _).detach here)).signalEvent _
  | stop => exact ⟨sync.suffix, sync.devices⟩
  | spuriousTimer here =>
      have suffix := sync.suffix
      simp only [remaining, here] at suffix
      exact ⟨suffix, fun e => by simpa only [mark, here] using sync.devices e⟩
  | spurious => exact sync.setDev (sync.devices _).signal

theorem Sync.working (sync : Sync D s) {d : ι} (here : (s.dev d).loc = .working) :
    (s.dev d).calls = s.time ∧ (s.dev d).returned = s.time ∧ (s.dev d).done = false ∧
      (s.dev d).fsh = false ∧ s.mark d = .fresh := by
  have ok := sync.devices d
  simp only [DevOk, here] at ok
  exact ⟨ok.2.2.1, ok.2.2.2.1, ok.1, ok.2.1, ok.2.2.2.2⟩

/-- Every device that is still attached has used, or is using, all slots so far. -/
theorem Sync.time_le_calls (sync : Sync D s) {d : ι} (attached : (s.dev d).loc ≠ .detached) :
    s.time ≤ (s.dev d).calls := by
  have ok := sync.devices d
  cases here : (s.dev d).loc with
  | working => exact (sync.working here).1.ge
  | detached => exact absurd here attached
  | testing | waiting =>
      simp only [DevOk, here] at ok
      obtain ⟨_, _, _, calls⟩ := ok
      split at calls
      · split at calls <;> omega
      · omega

/-- A call that returns is the one for the slot the clock has just left. -/
theorem Sync.return_calls (sync : Sync D s) {d : ι} (h : s.step D (.test d) = some s')
    (back : (s'.dev d).loc = .working) : (s'.dev d).returned = s.time := by
  have returned := ((sync.step h).working back).2.1
  cases step_move h with
  | test => exact returned

theorem Sync.clock_still (sync : Sync D s) {d : ι} (here : (s.dev d).loc = .working)
    {a : TimerAction ι} (h : s.step D a = some s') : s'.time = s.time := by
  have fresh := (sync.working here).2.2.2.2
  cases step_move h with
  | timer move =>
      cases move with
      | tick at_end => simp [mark, at_end] at fresh
      | _ => rfl
  | nextSlot | detach => exact signalEvent_time _ _
  | _ => rfl

theorem reach_sync (reach : Reach (step D) init s) : Sync D s :=
  reach.invariant (fun _ _ _ sync h => sync.step h) (Sync.init D)

end Sync

def currentTime (s : Timer ι) : Nat := s.time

/-- The slot barrier in any interleaving: when the k-th next_slot call of a device
returns, every device still attached has made its own k-th call; and while a device is
at work the clock equals the number of its returned calls and stands still. -/
theorem slot_barrier (D : DevList ι) {s : Timer ι} (reach : Reach (step D) init s) :
    (∀ d s', s.step D (.test d) = some s' → (s'.dev d).loc = .working →
      ∀ e, (s.dev e).loc ≠ .detached → (s'.dev d).returned ≤ (s.dev e).calls) ∧
    (∀ d, (s.dev d).loc = .working → s.currentTime = (s.dev d).returned ∧
      ∀ a s', s.step D a = some s' → s'.currentTime = s.currentTime) := by
  have sync := reach_sync reach
  constructor
  · intro d s' h back e attached
    rw [sync.return_calls h back]
    exact sync.time_le_calls attached
  · intro d here
    exact ⟨(sync.working here).2.1.symm, fun a s' h => sync.clock_still here h⟩

def twoDevices : DevList Bool := ⟨[true, false], by decide, by decide⟩

/-- Both devices use the first slot and one of them is back at work in the second. -/
theorem slot_barrier_two : ∃ s, Reach (step twoDevices) init s ∧ (s.dev false).loc = .testing ∧
    s.currentTime = 1 ∧ (s.dev true).returned = 1 ∧
    ∀ a s', s.step twoDevices a = some s' → s'.currentTime = s.currentTime := by
  obtain ⟨s, reached, blocked, here, back⟩ :
      ∃ s ∈ run (step twoDevices) init
          ([.nextSlot true, .nextSlot false] ++ List.replicate 5 .timer ++ [.test true]),
        (s.dev false).loc = .testing ∧ (s.dev true).loc = .working ∧ (s.dev true).returned = 1 := by
    decide
  obtain ⟨equal, still⟩ := (slot_barrier twoDevices ⟨_, reached⟩).2 true here
  exact ⟨s, ⟨_, reached⟩, blocked, equal.trans back, back, still⟩

end Timer
end OsSim
