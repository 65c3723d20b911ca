import Mathlib.Data.List.FinRange
import OsSim.Os
import OsSim.TimerBarrier

/-! The simulator as main starts it: the threads of os.c as the devices of timer.c. A
thread calls and returns from next_slot, and detaches, in one step of both parts. -/
namespace OsSim
open Transition

structure Machine (cfg : Config) where
  os : Os cfg
  timer : Timer (Thread cfg.numCpus)

inductive MachineAction (n : Nat) where
  | work (t : Thread n)
  | timer (a : TimerAction (Thread n))

/-- main attaches the CPUs in order and the loader last; attach_event puts each new
device at the head of dev_list. -/
def devList (n : Nat) : DevList (Thread n) where
  devs := .loader :: ((List.finRange n).map .cpu).reverse
  nodup := by
    refine List.nodup_cons.mpr ⟨by simp, List.nodup_reverse.mpr ?_⟩
    exact (List.nodup_finRange n).map fun _ _ eq => Thread.cpu.inj eq
  mem t := by cases t <;> simp

/-- The step of os.c that a step of timer.c comes with; next_slot returns when its test
finds done cleared. -/
def TimerAction.accompanied {n : Nat} (after : Timer (Thread n)) :
    TimerAction (Thread n) → Option (OsAction n)
  | .nextSlot t => some (.timer .call t)
  | .test t => if (after.dev t).loc = .working then some (.timer .ret t) else none
  | .detach t => some (.timer .detach t)
  | .timer | .stop | .spuriousTimer | .spurious _ => none

namespace Machine
variable {cfg : Config}

def init (cfg : Config) : Machine cfg := ⟨Os.init cfg, Timer.init⟩

/-- The part of a timer label's step that os.c takes, where timer.c comes to `timer`. -/
def follow (m : Machine cfg) (timer : Timer (Thread cfg.numCpus)) :
    Option (OsAction cfg.numCpus) → Option (Machine cfg)
  | none => some ⟨m.os, timer⟩
  | some b => (m.os.step m.timer.currentTime b).map fun os => ⟨os, timer⟩

def step (m : Machine cfg) : MachineAction cfg.numCpus → Option (Machine cfg)
  | .work t => (m.os.step m.timer.currentTime (.work t)).map fun os => ⟨os, m.timer⟩
  | .timer a => (m.timer.step (devList _) a).bind fun timer => m.follow timer (a.accompanied timer)

/-- Everything a step of the machine can be: a thread's own step, a step of timer.c alone,
or a call, a return or a detach that both parts take. -/
inductive Move (m : Machine cfg) : MachineAction cfg.numCpus → Machine cfg → Prop
  | work {t os} : m.os.step m.timer.currentTime (.work t) = some os →
      Move m (.work t) ⟨os, m.timer⟩
  | alone {a timer} : m.timer.step (devList _) a = some timer → (∀ t, a ≠ .nextSlot t) →
      (∀ t, a ≠ .detach t) → Move m (.timer a) ⟨m.os, timer⟩
  | call {t timer os} : m.timer.step (devList _) (.nextSlot t) = some timer →
      m.os.step m.timer.currentTime (.timer .call t) = some os →
      Move m (.timer (.nextSlot t)) ⟨os, timer⟩
  | ret {t timer os} : m.timer.step (devList _) (.test t) = some timer →
      (timer.dev t).loc = .working → m.os.step m.timer.currentTime (.timer .ret t) = some os →
      Move m (.timer (.test t)) ⟨os, timer⟩
  | detach {t timer os} : m.timer.step (devList _) (.detach t) = some timer →
      m.os.step m.timer.currentTime (.timer .detach t) = some os →
      Move m (.timer (.detach t)) ⟨os, timer⟩

theorem step_move {m m' : Machine cfg} {a : MachineAction cfg.numCpus}
    (h : m.step a = some m') : Move m a m' := by
  cases a with
  | work t =>
      obtain ⟨os, moved, rfl⟩ := Option.map_eq_some_iff.mp h
      exact .work moved
  | timer a =>
      obtain ⟨timer, ticked, rest⟩ := Option.bind_eq_some_iff.mp h
      cases a with
      | nextSlot t =>
          obtain ⟨os, moved, rfl⟩ := Option.map_eq_some_iff.mp rest
          exact .call ticked moved
      | detach t =>
          obtain ⟨os, moved, rfl⟩ := Option.map_eq_some_iff.mp rest
          exact .detach ticked moved
      | test t =>
          by_cases back : (timer.dev t).loc = .working
          · simp only [TimerAction.accompanied, if_pos back] at rest
            obtain ⟨os, moved, rfl⟩ := Option.map_eq_some_iff.mp rest
            exact .ret ticked back moved
          · simp only [TimerAction.accompanied, if_neg back] at rest
            exact Option.some.inj rest ▸ .alone ticked nofun nofun
      | timer => exact Option.some.inj rest ▸ .alone ticked nofun nofun
      | stop => exact Option.some.inj rest ▸ .alone ticked nofun nofun
      | spuriousTimer => exact Option.some.inj rest ▸ .alone ticked nofun nofun
      | spurious d => exact Option.some.inj rest ▸ .alone ticked nofun nofun

/-- Every run of the machine is, for os.c, one of the runs without a barrier. -/
theorem reach_os {m m' : Machine cfg} (reach : Reach step m m') : Reach Os.free m.os m'.os := by
  apply reach.project (f := Machine.os)
  intro m a m' h
  cases step_move h with
  | alone => exact .inl rfl
  | work moved | call _ moved | ret _ _ moved | detach _ moved => exact .inr ⟨(_, _), moved⟩

theorem reach_timer {m m' : Machine cfg} (reach : Reach step m m') :
    Reach (Timer.step (devList _)) m.timer m'.timer := by
  apply reach.project (f := Machine.timer)
  intro m a m' h
  cases step_move h with
  | work => exact .inl rfl
  | alone ticked | call ticked | ret ticked | detach ticked => exact .inr ⟨_, ticked⟩

end Machine
end OsSim
