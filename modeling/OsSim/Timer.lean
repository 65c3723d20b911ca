import OsSim.Transition
import Mathlib.Data.List.Infix
import Mathlib.Logic.Function.Basic

/-! timer.c: timer_routine and the device threads that use next_slot and detach_event.
Each lock-protected section is one step, up to a pthread_cond_wait in it. A waiter has
no step of its own until it is signalled; it then stands before its while test again. -/
namespace OsSim

/-- Where a device thread stands: outside timer.c, in next_slot before the test of its
second section, blocked on timer_cond, or past detach_event. -/
inductive DevLoc where
  | working
  | testing
  | waiting
  | detached
  deriving DecidableEq, Repr

/-- `struct timer_id_t` with its thread. `calls` counts the next_slot calls made and
`returned` those that came back; no step reads them. -/
structure Device where
  done : Bool
  fsh : Bool
  loc : DevLoc
  calls : Nat
  returned : Nat
  deriving DecidableEq, Repr

/-- The device list as attach_event leaves it: every device, each once. -/
structure DevList (ι : Type*) where
  devs : List ι
  nodup : devs.Nodup
  mem : ∀ d, d ∈ devs

theorem DevList.head_not_mem {ι : Type*} (D : DevList ι) {d : ι} {rest : List ι}
    (suffix : d :: rest <:+ D.devs) : d ∉ rest :=
  (List.nodup_cons.mp (D.nodup.sublist suffix.sublist)).1

/-- Where timer_routine stands; a list holds the devices its current loop has left.
`waiting d rest` is blocked on the event_cond of `d`. -/
inductive TimerLoc (ι : Type*) where
  | top
  | examine (rest : List ι)
  | waiting (d : ι) (rest : List ι)
  | release (rest : List ι)
  | exited

/-- The timer thread with its locals of the round, the globals of timer.c, the devices. -/
structure Timer (ι : Type*) where
  loc : TimerLoc ι
  fsh : Nat
  event : Nat
  time : Nat
  timerStop : Bool
  dev : ι → Device

/-- Who moves. `nextSlot` is the first section of next_slot and `test` its second one;
the two spurious labels are wake-ups that POSIX allows without a signal. -/
inductive TimerAction (ι : Type*) where
  | timer
  | nextSlot (d : ι)
  | test (d : ι)
  | detach (d : ι)
  | stop
  | spuriousTimer
  | spurious (d : ι)

namespace Device

/-- First section of next_slot; the signal to the timer is sent beside it. -/
def nextSlot (x : Device) : Device := { x with done := true, loc := .testing, calls := x.calls + 1 }

/-- `while (timer_id->done)` of next_slot: block, or leave. -/
def test (x : Device) : Device :=
  if x.done then { x with loc := .waiting }
  else { x with loc := .working, returned := x.returned + 1 }

def detach (x : Device) : Device := { x with fsh := true, loc := .detached }

/-- A signal on timer_cond, lost where nobody waits. -/
def signal (x : Device) : Device := if x.loc = .waiting then { x with loc := .testing } else x

/-- The release section: done is cleared and the waiter signalled. -/
def release (x : Device) : Device := { x with done := false }.signal

end Device

namespace Timer
variable {ι : Type*}

def init : Timer ι := ⟨.top, 0, 0, 0, false, fun _ => ⟨false, false, .working, 0, 0⟩⟩

/-- The devices the current loop of the timer has not passed yet. -/
def remaining (s : Timer ι) : List ι :=
  match s.loc with
  | .top | .exited => []
  | .examine rest | .release rest => rest
  | .waiting d rest => d :: rest

/-- Everything a step can do to one device. -/
inductive DevMove (d : ι) (x : Device) : TimerAction ι → Device → Prop
  | same {a} : DevMove d x a x
  | signal {a} : DevMove d x a x.signal
  | release : DevMove d x .timer x.release
  | nextSlot : x.loc = .working → DevMove d x (.nextSlot d) x.nextSlot
  | test : x.loc = .testing → DevMove d x (.test d) x.test
  | detach : x.loc = .working → DevMove d x (.detach d) x.detach

theorem signal_working {x : Device} (here : x.loc = .working) : x.signal = x := by
  simp [Device.signal, here]

theorem DevMove.working {d : ι} {x y : Device} {a : TimerAction ι} (move : DevMove d x a y)
    (here : x.loc = .working) : y.loc = .working ∨ a = .nextSlot d ∨ a = .detach d := by
  cases move with
  | same => exact .inl here
  | signal =>
      rw [signal_working here]
      exact .inl here
  | release => exact .inl (by simp [Device.release, Device.signal, here])
  | nextSlot => exact .inr (.inl rfl)
  | test blocked => exact nomatch here.symm.trans blocked
  | detach => exact .inr (.inr rfl)

theorem DevMove.calls {d : ι} {x y : Device} {a : TimerAction ι} (move : DevMove d x a y)
    (other : a ≠ .nextSlot d) : y.calls = x.calls := by
  have signal : ∀ z : Device, z.signal.calls = z.calls := fun z => by
    unfold Device.signal
    split <;> rfl
  cases move with
  | same => rfl
  | signal => exact signal x
  | release => exact signal _
  | nextSlot => exact absurd rfl other
  | test =>
      unfold Device.test
      split <;> rfl
  | detach => rfl

/-- A device is counted out only when it detaches. -/
theorem DevMove.attached {d : ι} {x y : Device} {a : TimerAction ι} (move : DevMove d x a y)
    (attached : x.loc ≠ .detached) (other : a ≠ .detach d) : y.loc ≠ .detached := by
  have signal : ∀ z : Device, z.loc ≠ .detached → z.signal.loc ≠ .detached := by
    intro z before
    unfold Device.signal
    split
    · nofun
    · exact before
  cases move with
  | same => exact attached
  | signal => exact signal x attached
  | release => exact signal _ attached
  | nextSlot => nofun
  | test =>
      unfold Device.test
      split <;> nofun
  | detach => exact absurd rfl other

variable [DecidableEq ι]

def setDev (s : Timer ι) (d : ι) (x : Device) : Timer ι :=
  { s with dev := Function.update s.dev d x }

/-- A signal on the event_cond of `d`, lost where the timer does not wait on it. -/
def signalEvent (s : Timer ι) (d : ι) : Timer ι :=
  match s.loc with
  | .waiting e rest => if e = d then { s with loc := .examine (e :: rest) } else s
  | _ => s

/-- The next section of timer_routine; a blocked or finished timer has none. -/
def timerStep (D : DevList ι) (s : Timer ι) : Option (Timer ι) :=
  match s.loc with
  | .top =>
      if s.timerStop then some { s with loc := .exited }
      else some { s with loc := .examine D.devs, fsh := 0, event := 0 }
  | .examine [] => some { s with loc := .release D.devs, time := s.time + 1 }
  | .examine (d :: rest) =>
      if (s.dev d).done || (s.dev d).fsh then
        some { s with
          loc := .examine rest
          fsh := if (s.dev d).fsh then s.fsh + 1 else s.fsh
          event := s.event + 1 }
      else some { s with loc := .waiting d rest }
  | .waiting _ _ => none
  | .release [] =>
      if s.fsh = s.event then some { s with loc := .exited } else some { s with loc := .top }
  | .release (d :: rest) => some { s.setDev d (s.dev d).release with loc := .release rest }
  | .exited => none

def step (D : DevList ι) (s : Timer ι) : TimerAction ι → Option (Timer ι)
  | .timer => s.timerStep D
  | .nextSlot d =>
      if (s.dev d).loc = .working then some ((s.setDev d (s.dev d).nextSlot).signalEvent d)
      else none
  | .test d => if (s.dev d).loc = .testing then some (s.setDev d (s.dev d).test) else none
  | .detach d =>
      if (s.dev d).loc = .working then some ((s.setDev d (s.dev d).detach).signalEvent d) else none
  | .stop =>
      -- main calls stop_timer after it has joined every device thread
      if ∀ d ∈ D.devs, (s.dev d).loc = .detached then some { s with timerStop := true } else none
  | .spuriousTimer =>
      match s.loc with
      | .waiting d rest => some { s with loc := .examine (d :: rest) }
      | _ => none
  | .spurious d => if (s.dev d).loc = .waiting then some (s.setDev d (s.dev d).signal) else none

@[simp] theorem setDev_same (s : Timer ι) (d : ι) (x : Device) : (s.setDev d x).dev d = x := by
  simp [setDev]

theorem setDev_dev (s : Timer ι) (d e : ι) (x : Device) :
    (s.setDev d x).dev e = if e = d then x else s.dev e := by
  simp [setDev, Function.update_apply]

/-- A property of devices that a change of one of them keeps. -/
theorem setDev_keeps (s : Timer ι) {d e : ι} {x : Device} {P : Device → Prop}
    (keep : P (s.dev d) → P x) (h : P (s.dev e)) : P ((s.setDev d x).dev e) := by
  rw [setDev_dev]
  split
  · rename_i same
    exact keep (same ▸ h)
  · exact h

@[simp] theorem setDev_loc (s : Timer ι) (d : ι) (x : Device) : (s.setDev d x).loc = s.loc := rfl
@[simp] theorem setDev_time (s : Timer ι) (d : ι) (x : Device) : (s.setDev d x).time = s.time := rfl
@[simp] theorem setDev_stop (s : Timer ι) (d : ι) (x : Device) :
    (s.setDev d x).timerStop = s.timerStop := rfl

/-- A signal moves the timer and nothing else, and only within its examination. -/
theorem signalEvent_cases (s : Timer ι) (d : ι) :
    s.signalEvent d = s ∨ ∃ rest, s.loc = .waiting d rest ∧
      s.signalEvent d = { s with loc := .examine (d :: rest) } := by
  unfold signalEvent
  split
  · rename_i e rest eq
    split
    · rename_i same
      subst same
      exact .inr ⟨rest, eq, rfl⟩
    · exact .inl rfl
  · exact .inl rfl

@[simp] theorem signalEvent_dev (s : Timer ι) (d : ι) : (s.signalEvent d).dev = s.dev := by
  rcases s.signalEvent_cases d with same | ⟨rest, _, moved⟩ <;> simp only [*]

@[simp] theorem signalEvent_time (s : Timer ι) (d : ι) : (s.signalEvent d).time = s.time := by
  rcases s.signalEvent_cases d with same | ⟨rest, _, moved⟩ <;> simp only [*]

@[simp] theorem signalEvent_stop (s : Timer ι) (d : ι) :
    (s.signalEvent d).timerStop = s.timerStop := by
  rcases s.signalEvent_cases d with same | ⟨rest, _, moved⟩ <;> simp only [*]

theorem signalEvent_not_waiting (s : Timer ι) (d : ι) (rest : List ι) :
    (s.signalEvent d).loc ≠ .waiting d rest := by
  intro blocked
  rcases s.signalEvent_cases d with same | ⟨rest', _, moved⟩
  · have before : s.loc = .waiting d rest := same ▸ blocked
    simp only [signalEvent, before, if_true] at blocked
    cases blocked
  · rw [moved] at blocked
    cases blocked

section Moves
variable {D : DevList ι} {s s' : Timer ι}

/-- Everything the next section of timer_routine can be, with what it asks of the state
before. -/
inductive RoundMove (D : DevList ι) (s : Timer ι) : Timer ι → Prop
  | leave : s.loc = .top → s.timerStop = true → RoundMove D s { s with loc := .exited }
  | start : s.loc = .top → s.timerStop = false →
      RoundMove D s { s with loc := .examine D.devs, fsh := 0, event := 0 }
  | tick : s.loc = .examine [] →
      RoundMove D s { s with loc := .release D.devs, time := s.time + 1 }
  | count {d rest} : s.loc = .examine (d :: rest) → ((s.dev d).done || (s.dev d).fsh) = true →
      RoundMove D s { s with
        loc := .examine rest
        fsh := if (s.dev d).fsh then s.fsh + 1 else s.fsh
        event := s.event + 1 }
  | block {d rest} : s.loc = .examine (d :: rest) → ((s.dev d).done || (s.dev d).fsh) = false →
      RoundMove D s { s with loc := .waiting d rest }
  | finish : s.loc = .release [] → s.fsh = s.event → RoundMove D s { s with loc := .exited }
  | again : s.loc = .release [] → s.fsh ≠ s.event → RoundMove D s { s with loc := .top }
  | release {d rest} : s.loc = .release (d :: rest) →
      RoundMove D s { s.setDev d (s.dev d).release with loc := .release rest }

theorem timerStep_move (h : s.timerStep D = some s') : RoundMove D s s' := by
  unfold timerStep at h
  split at h
  · rename_i here
    split at h
    · rename_i stop
      exact Option.some.inj h ▸ .leave here stop
    · rename_i going
      exact Option.some.inj h ▸ .start here (by simpa using going)
  · rename_i here
    exact Option.some.inj h ▸ .tick here
  · rename_i d rest here
    split at h
    · rename_i answered
      exact Option.some.inj h ▸ .count here answered
    · rename_i unanswered
      exact Option.some.inj h ▸ .block here (by simpa using unanswered)
  · cases h
  · rename_i here
    split at h
    · rename_i agree
      exact Option.some.inj h ▸ .finish here agree
    · rename_i differ
      exact Option.some.inj h ▸ .again here differ
  · rename_i d rest here
    exact Option.some.inj h ▸ .release here
  · cases h

/-- Everything a step can be. -/
inductive Move (D : DevList ι) (s : Timer ι) : TimerAction ι → Timer ι → Prop
  | timer {t} : RoundMove D s t → Move D s .timer t
  | nextSlot {d} : (s.dev d).loc = .working →
      Move D s (.nextSlot d) ((s.setDev d (s.dev d).nextSlot).signalEvent d)
  | test {d} : (s.dev d).loc = .testing → Move D s (.test d) (s.setDev d (s.dev d).test)
  | detach {d} : (s.dev d).loc = .working →
      Move D s (.detach d) ((s.setDev d (s.dev d).detach).signalEvent d)
  | stop : (∀ d, (s.dev d).loc = .detached) → Move D s .stop { s with timerStop := true }
  | spuriousTimer {d rest} : s.loc = .waiting d rest →
      Move D s .spuriousTimer { s with loc := .examine (d :: rest) }
  | spurious {d} : (s.dev d).loc = .waiting → Move D s (.spurious d) (s.setDev d (s.dev d).signal)

theorem step_move {a : TimerAction ι} (h : s.step D a = some s') : Move D s a s' := by
  cases a with
  | timer => exact .timer (timerStep_move h)
  | nextSlot d =>
      obtain ⟨here, eq⟩ := Option.ite_none_right_eq_some.mp h
      exact Option.some.inj eq ▸ .nextSlot here
  | test d =>
      obtain ⟨here, eq⟩ := Option.ite_none_right_eq_some.mp h
      exact Option.some.inj eq ▸ .test here
  | detach d =>
      obtain ⟨here, eq⟩ := Option.ite_none_right_eq_some.mp h
      exact Option.some.inj eq ▸ .detach here
  | stop =>
      obtain ⟨gone, eq⟩ := Option.ite_none_right_eq_some.mp h
      exact Option.some.inj eq ▸ .stop fun d => gone d (D.mem d)
  | spuriousTimer =>
      simp only [step] at h
      split at h
      · rename_i d rest here
        exact Option.some.inj h ▸ .spuriousTimer here
      · cases h
  | spurious d =>
      obtain ⟨here, eq⟩ := Option.ite_none_right_eq_some.mp h
      exact Option.some.inj eq ▸ .spurious here

theorem setDev_devMove (s : Timer ι) {d e : ι} {x : Device} {a : TimerAction ι}
    (move : DevMove d (s.dev d) a x) : DevMove e (s.dev e) a ((s.setDev d x).dev e) := by
  rw [setDev_dev]
  split
  · rename_i same
    subst same
    exact move
  · exact .same

theorem step_devMove {a : TimerAction ι} (h : s.step D a = some s') (e : ι) :
    DevMove e (s.dev e) a (s'.dev e) := by
  cases step_move h with
  | timer move =>
      cases move with
      | release => exact s.setDev_devMove .release
      | _ => exact .same
  | nextSlot here =>
      rw [signalEvent_dev]
      exact s.setDev_devMove (.nextSlot here)
  | test here => exact s.setDev_devMove (.test here)
  | detach here =>
      rw [signalEvent_dev]
      exact s.setDev_devMove (.detach here)
  | stop | spuriousTimer => exact .same
  | spurious => exact s.setDev_devMove .signal

theorem nextSlot_calls {d : ι} (h : s.step D (.nextSlot d) = some s') :
    (s'.dev d).calls = (s.dev d).calls + 1 := by
  cases step_move h with
  | nextSlot =>
      rw [signalEvent_dev, setDev_same]
      rfl

end Moves
end Timer
end OsSim
