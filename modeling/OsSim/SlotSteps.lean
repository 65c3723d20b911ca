import Mathlib.Algebra.Order.BigOperators.Group.Finset
import OsSim.RunChart
import OsSim.TimerProgress

/-! The steps that a slot takes. What is left for each thread to do in the slot, and for the
timer, gets less with every step but the one that moves the clock; and as long as a thread is
attached some step is left. So the clock goes on, whatever the order of the steps. -/
namespace OsSim
open Transition

instance (n : Nat) : Fintype (Thread n) := ⟨(devList n).devs.toFinset, fun t => by
  simp [(devList n).mem t]⟩

theorem card_thread (n : Nat) : Fintype.card (Thread n) = n + 1 := by
  change (devList n).devs.toFinset.card = n + 1
  rw [List.toFinset_card_of_nodup (devList n).nodup]
  simp [devList]

/-- The steps of its own that a CPU may take before its call of next_slot or detach_event. -/
def CpuLoc.workLeft : CpuLoc → Nat
  | .top => 4
  | .afterFinish | .afterPut => 3
  | .recheck => 2
  | .running => 1
  | .slotDue | .inSlot | .leaving | .detached => 0

def LdLoc.workLeft : LdLoc → Nat
  | .test => 2
  | .ready => 1
  | .early | .earlySlot | .added | .addedSlot | .leaving | .detached => 0

/-- A bound on the steps of a device before it waits for the next slot. One that the timer has
still to release in this slot has the whole of its work to do. -/
def Device.left (work : Nat) (pending : Bool) (x : Device) : Nat :=
  match x.loc with
  | .working => work + 3
  | .testing => if x.done then if pending then 9 else 1 else 8
  | .waiting => if pending then 8 else 0
  | .detached => 0

/-- The sections of timer_routine before the clock moves; each device is examined twice at most,
once before the timer waits for it and once after it has been signalled. -/
def TimerLoc.left {ι : Type*} (devices : Nat) : TimerLoc ι → Nat
  | .release rest => rest.length + (2 * devices + 3)
  | .top => 2 * devices + 2
  | .examine rest => 2 * rest.length + 1
  | .waiting _ rest => 2 * rest.length + 2
  | .exited => 0

/-- A sum of which one term has changed. -/
theorem sum_one {ι : Type*} [DecidableEq ι] {terms : Finset ι} {f g : ι → Nat}
    {i : ι} (member : i ∈ terms) (others : ∀ j ∈ terms, j ≠ i → g j = f j) :
    ∑ j ∈ terms, g j + f i = ∑ j ∈ terms, f j + g i := by
  have rest : ∑ j ∈ terms.erase i, g j = ∑ j ∈ terms.erase i, f j := by
    refine Finset.sum_congr rfl fun j left => ?_
    exact others j (Finset.mem_of_mem_erase left) (Finset.ne_of_mem_erase left)
  rw [← Finset.add_sum_erase _ f member, ← Finset.add_sum_erase _ g member, rest]
  omega

theorem sum_lt_of_one {ι : Type*} [Fintype ι] [DecidableEq ι] {f g : ι → Nat} {a b : Nat} (i : ι)
    (others : ∀ j ≠ i, g j = f j) (less : a + g i < b + f i) : a + ∑ j, g j < b + ∑ j, f j := by
  have same := sum_one (Finset.mem_univ i) fun j _ other => others j other
  omega

namespace Timer
variable {ι : Type*}

/-- A device comes back to work by its own test only. -/
theorem DevMove.back {d : ι} {x y : Device} {a : TimerAction ι} (move : DevMove d x a y)
    (working : y.loc = .working) : x.loc = .working ∨ a = .test d := by
  have signal : ∀ z : Device, z.signal.loc = .working → z.loc = .working := by
    intro z h
    unfold Device.signal at h
    split at h
    · cases h
    · exact h
  cases move with
  | same => exact .inl working
  | signal => exact .inl (signal x working)
  | release => exact .inl (signal { x with done := false } working)
  | nextSlot => cases working
  | test => exact .inr rfl
  | detach => cases working

theorem DevMove.gone {d : ι} {x y : Device} {a : TimerAction ι} (move : DevMove d x a y)
    (detached : x.loc = .detached) : y.loc = .detached := by
  cases move with
  | same => exact detached
  | signal => simp [Device.signal, detached]
  | release => simp [Device.release, Device.signal, detached]
  | nextSlot here | test here | detach here => cases detached.symm.trans here

/-- Devices wait for their release in the second loop only. -/
theorem mark_pending [DecidableEq ι] {s : Timer ι} {d : ι} :
    s.mark d = .pending ↔ ∃ rest, s.loc = .release rest ∧ d ∈ rest := by
  unfold mark
  cases here : s.loc with
  | top | exited => simp
  | examine rest =>
      by_cases listed : d ∈ rest <;> simp [listed]
  | waiting e rest =>
      by_cases listed : d ∈ e :: rest <;> simp [listed]
  | release rest =>
      by_cases listed : d ∈ rest <;> simp [listed]

end Timer

namespace Os
variable {cfg : Config}

/-- Where a thread stands. -/
def place (s : Os cfg) : Thread cfg.numCpus → CpuLoc ⊕ LdLoc
  | .cpu c => .inl (s.cpu c).loc
  | .loader => .inr s.ld.loc

def workLeft (s : Os cfg) (t : Thread cfg.numCpus) : Nat :=
  match s.place t with
  | .inl loc => loc.workLeft
  | .inr loc => loc.workLeft

def Detached (s : Os cfg) (t : Thread cfg.numCpus) : Prop :=
  s.place t = .inl .detached ∨ s.place t = .inr .detached

theorem workLeft_le (s : Os cfg) (t : Thread cfg.numCpus) : s.workLeft t ≤ 4 := by
  have cpu : ∀ loc : CpuLoc, loc.workLeft ≤ 4 := fun loc => by cases loc <;> decide
  have ld : ∀ loc : LdLoc, loc.workLeft ≤ 4 := fun loc => by cases loc <;> decide
  unfold workLeft
  split
  · exact cpu _
  · exact ld _

section Steps
variable {s s' : Os cfg} {now : Nat}

theorem inTimer_congr {t : Thread cfg.numCpus} (same : s'.place t = s.place t) :
    s'.InTimer t ↔ s.InTimer t := by
  cases t with
  | cpu c => rw [InTimer, InTimer, Sum.inl.inj same]
  | loader => rw [InTimer, InTimer, Sum.inr.inj same]

theorem workLeft_congr {t : Thread cfg.numCpus} (same : s'.place t = s.place t) :
    s'.workLeft t = s.workLeft t := by
  rw [workLeft, workLeft, same]

/-- A step moves one thread. -/
theorem place_others {a : OsAction cfg.numCpus} (h : s.step now a = some s')
    {u : Thread cfg.numCpus} (other : u ≠ a.thread) : s'.place u = s.place u := by
  cases step_move h with
  | @cpu c _ move =>
      obtain ⟨ld, -, others⟩ := move.frame
      cases u with
      | cpu d => exact congrArg (Sum.inl ·.loc) (others d fun same => other (same ▸ rfl))
      | loader => exact congrArg (Sum.inr ·.loc) ld
  | loader move =>
      cases u with
      | cpu d => exact congrArg (Sum.inl ·.loc) (congrFun move.frame_cpu d)
      | loader => exact absurd rfl other
  | @cpuTimer _ loc c after =>
      cases u with
      | cpu d =>
          have : d ≠ c := fun same => other (same ▸ rfl)
          rw [place, place, setCpu_cpu, if_neg this]
      | loader => rfl
  | ldTimer =>
      cases u with
      | cpu d => rfl
      | loader => exact absurd rfl other

theorem work_workLeft {t : Thread cfg.numCpus} (h : s.step now (.work t) = some s') :
    s'.workLeft t < s.workLeft t ∧ ¬ s.InTimer t ∧ ¬ s'.InTimer t := by
  cases step_move h with
  | @cpu c _ move =>
      refine ⟨?_, move.outside, ?_⟩
      · cases move with
        | load here =>
            simp only [getProc, setCpu_same, workLeft, place, here]
            split <;> decide
        | afterFinish here | afterPut here =>
            simp only [getProc, setCpu_same, workLeft, place, here]
            decide
        | report here | expire here | resume here | stop here | skip here | dispatch here
        | proceed here | run here =>
            simp only [workLeft, place, setCpu_same, note_cpu, here]
            decide
      · cases move with
        | load =>
            simp only [getProc, InTimer, setCpu_same, CpuLoc.InTimer]
            split <;> decide
        | _ => simp [getProc, InTimer, CpuLoc.InTimer]
  | loader move =>
      refine ⟨?_, move.outside, ?_⟩
      · cases move with
        | early here | due here | finish here | add here =>
            simp only [workLeft, place, note_ld, here]
            decide
      · cases move <;> simp [InTimer, LdLoc.InTimer]

theorem ret_inTimer {t : Thread cfg.numCpus} (h : s.step now (.timer .ret t) = some s') :
    s.InTimer t ∧ ¬ s'.InTimer t := by
  cases step_move h with
  | @cpuTimer _ loc c after =>
      cases here : (s.cpu c).loc <;> rw [here] at after <;> cases after
      exact ⟨.inl here, by simp [InTimer, CpuLoc.InTimer]⟩
  | @ldTimer _ loc after =>
      cases here : s.ld.loc <;> rw [here] at after <;> cases after
      · exact ⟨.inl here, by simp [InTimer, LdLoc.InTimer]⟩
      · exact ⟨.inr (.inl here), by simp [InTimer, LdLoc.InTimer]⟩

theorem Detached.inTimer {t : Thread cfg.numCpus} (gone : s.Detached t) : s.InTimer t := by
  cases t with
  | cpu c => exact gone.elim (fun eq => .inr (Sum.inl.inj eq)) nofun
  | loader => exact gone.elim nofun fun eq => .inr (.inr (Sum.inr.inj eq))

theorem detach_detached {t : Thread cfg.numCpus} (h : s.step now (.timer .detach t) = some s') :
    s'.Detached t := by
  cases step_move h with
  | @cpuTimer _ loc c after =>
      cases here : (s.cpu c).loc <;> rw [here] at after <;> cases after
      exact .inl (by rw [place, setCpu_same])
  | @ldTimer _ loc after =>
      cases here : s.ld.loc <;> rw [here] at after <;> cases after
      exact .inr rfl

/-- Only detach_event takes a thread out for good. -/
theorem detached_step {a : OsAction cfg.numCpus} (h : s.step now a = some s')
    {t : Thread cfg.numCpus} (gone : s'.Detached t) : s.Detached t ∨ a = .timer .detach t := by
  by_cases own : t = a.thread
  · subst own
    match a with
    | .work t =>
        exact absurd gone.inTimer (work_workLeft h).2.2
    | .timer k t =>
        cases k with
        | detach => exact .inr rfl
        | ret =>
            exact absurd gone.inTimer (ret_inTimer h).2
        | call =>
            cases step_move h with
            | @cpuTimer _ loc c after =>
                cases here : (s.cpu c).loc <;> rw [here] at after <;> cases after
                simp [Detached, place, OsAction.thread] at gone
            | @ldTimer _ loc after =>
                cases here : s.ld.loc <;> rw [here] at after <;> cases after <;>
                  simp [Detached, place, OsAction.thread] at gone
  · exact .inl (by rwa [Detached, place_others h own] at gone)

theorem Detached.step {a : OsAction cfg.numCpus} (h : s.step now a = some s')
    {t : Thread cfg.numCpus} (gone : s.Detached t) : s'.Detached t := by
  by_cases own : t = a.thread
  · subst own
    match a with
    | .work t => exact absurd gone.inTimer (work_workLeft h).2.1
    | .timer k t =>
        cases step_move h with
        | @cpuTimer _ loc c after =>
            have here : (s.cpu c).loc = .detached := gone.elim (fun eq => Sum.inl.inj eq) nofun
            rw [here] at after
            cases k <;> cases after
        | @ldTimer _ loc after =>
            have here : s.ld.loc = .detached := gone.elim nofun fun eq => Sum.inr.inj eq
            rw [here] at after
            cases k <;> cases after
  · rwa [Detached, place_others h own]

/-- A thread outside of timer.c has a step: one of its own, or its call, or its detach. -/
theorem outside_moves (ph : s.Phases) (now : Nat) {t : Thread cfg.numCpus}
    (out : ¬ s.InTimer t) : (s.step now (.work t)).isSome ∨ (s.step now (.timer .call t)).isSome ∨
      (s.step now (.timer .detach t)).isSome := by
  cases t with
  | cpu c =>
      rcases eq : s.cpu c with ⟨loc, proc, timeLeft⟩
      have at_loc : (s.cpu c).loc = loc := by rw [eq]
      cases loc with
      | top =>
          left
          cases proc with
          | none => simp [step, cpuWork, eq]
          | some p =>
              simp only [step, cpuWork, eq]
              split
              · rfl
              · split <;> rfl
      | recheck =>
          left
          cases proc with
          | none =>
              simp only [step, cpuWork, eq]
              split <;> rfl
          | some p =>
              simp only [step, cpuWork, eq]
              split <;> rfl
      | afterFinish | afterPut => exact .inl (by simp [step, cpuWork, eq])
      | running =>
          cases proc with
          | none => exact absurd (by rw [eq]) (ph.running c at_loc)
          | some p => exact .inl (by simp [step, cpuWork, eq])
      | slotDue => exact .inr (.inl (by simp [step, CpuLoc.after, eq]))
      | leaving => exact .inr (.inr (by simp [step, CpuLoc.after, eq]))
      | inSlot => exact absurd (.inl at_loc) out
      | detached => exact absurd (.inr at_loc) out
  | loader =>
      cases here : s.ld.loc with
      | test =>
          left
          simp only [step, ldWork, here]
          split
          · split <;> rfl
          · rfl
      | ready => exact .inl (by simp [step, ldWork, here])
      | early | added => exact .inr (.inl (by simp [step, LdLoc.after, here]))
      | leaving => exact .inr (.inr (by simp [step, LdLoc.after, here]))
      | earlySlot => exact absurd (.inl here) out
      | addedSlot => exact absurd (.inr (.inl here)) out
      | detached => exact absurd (.inr (.inr here)) out

/-- A thread inside next_slot is ready to come back. -/
theorem ret_ready (s : Os cfg) (now : Nat) {t : Thread cfg.numCpus} (inside : s.InTimer t)
    (attached : ¬ s.Detached t) : (s.step now (.timer .ret t)).isSome := by
  cases t with
  | cpu c =>
      rcases inside with here | gone
      · simp [step, here, CpuLoc.after]
      · exact absurd (.inl (congrArg Sum.inl gone)) attached
  | loader =>
      rcases inside with here | here | gone
      · simp [step, here, LdLoc.after]
      · simp [step, here, LdLoc.after]
      · exact absurd (.inr (congrArg Sum.inr gone)) attached

end Steps
end Os

namespace Machine
variable {cfg : Config} {m m' : Machine cfg}

/-- What is left for a thread to do, outside timer.c and in it, before it waits. -/
def left (m : Machine cfg) (t : Thread cfg.numCpus) : Nat :=
  (m.timer.dev t).left (m.os.workLeft t) (m.timer.mark t = .pending)

/-- What is left for all of them before the clock moves. -/
def stepsLeft (m : Machine cfg) : Nat :=
  m.timer.loc.left (cfg.numCpus + 1) + ∑ t, m.left t

/-- The steps of a slot, from one move of the clock to the next one. -/
def slotSteps (cfg : Config) : Nat := 12 * (cfg.numCpus + 1) + 4

/-- The labels that are a thread's own step, in os.c or in timer.c. -/
def Own {n : Nat} : MachineAction n → Prop
  | .work _ => True
  | .timer a => Timer.TimerAction.Own a

instance {n : Nat} : DecidablePred (@Own n)
  | .work _ => .isTrue trivial
  | .timer .timer | .timer (.nextSlot _) | .timer (.test _) | .timer (.detach _) => .isTrue trivial
  | .timer .stop | .timer .spuriousTimer | .timer (.spurious _) => .isFalse id

theorem devs_length (n : Nat) : (devList n).devs.length = n + 1 := by simp [devList]

theorem stepsLeft_lt (co : m.Coupled) : m.stepsLeft < slotSteps cfg := by
  have each : ∑ t, m.left t ≤ (cfg.numCpus + 1) * 9 := by
    rw [← card_thread, ← Finset.card_univ, ← Finset.sum_const_nat fun _ _ => rfl]
    refine Finset.sum_le_sum fun t _ => ?_
    have work := m.os.workLeft_le t
    unfold left Device.left
    split
    · omega
    · split
      · split <;> omega
      · omega
    · split <;> omega
    · omega
  have listed := (devs_length cfg.numCpus) ▸ co.sync.suffix.length_le
  have timer : m.timer.loc.left (cfg.numCpus + 1) ≤ 3 * (cfg.numCpus + 1) + 3 := by
    unfold Timer.remaining at listed
    cases here : m.timer.loc <;> rw [here] at listed <;> simp only [TimerLoc.left] <;>
      simp only [List.length_cons] at listed <;> omega
  unfold stepsLeft slotSteps
  omega

/-- What timer.c shows of a thread that os.c has inside next_slot, or detached. -/
structure InStep (m : Machine cfg) : Prop where
  inside : ∀ t, m.os.InTimer t → (m.timer.dev t).loc ≠ .working
  detached : ∀ t, m.os.Detached t ↔ (m.timer.dev t).loc = .detached

theorem InStep.init (cfg : Config) : (init cfg).InStep where
  inside t inside := by
    cases t with
    | cpu c => rcases inside with eq | eq <;> cases eq
    | loader => rcases inside with eq | eq | eq <;> cases eq
  detached t := by
    refine ⟨fun gone => ?_, nofun⟩
    cases t with
    | cpu c => rcases gone with eq | eq <;> cases eq
    | loader => rcases gone with eq | eq <;> cases eq

section Steps
variable {os : Os cfg} {timer : Timer (Thread cfg.numCpus)} {t : Thread cfg.numCpus}

/-- A device that comes back to work takes its thread of os.c with it. -/
theorem step_back (h : m.step (.timer (.test t)) = some m')
    (back : (m'.timer.dev t).loc = .working) :
    m.os.step m.timer.currentTime (.timer .ret t) = some m'.os := by
  obtain ⟨timer, ticked, rest⟩ := Option.bind_eq_some_iff.mp h
  by_cases here : (timer.dev t).loc = .working
  · simp only [TimerAction.accompanied, if_pos here] at rest
    obtain ⟨os, moved, rfl⟩ := Option.map_eq_some_iff.mp rest
    exact moved
  · simp only [TimerAction.accompanied, if_neg here] at rest
    obtain rfl := Option.some.inj rest
    exact absurd back here

/-- A step of timer.c in which os.c has no part brings no device back. -/
theorem alone_back {a : TimerAction (Thread cfg.numCpus)}
    (h : m.step (.timer a) = some ⟨m.os, timer⟩)
    (ticked : m.timer.step (devList _) a = some timer) (working : (timer.dev t).loc = .working) :
    (m.timer.dev t).loc = .working := by
  rcases (Timer.step_devMove ticked t).back working with before | rfl
  · exact before
  · have returned := Os.ret_inTimer (step_back h working)
    exact absurd returned.1 returned.2

theorem InStep.step (inStep : m.InStep) {a : MachineAction cfg.numCpus} (h : m.step a = some m') :
    m'.InStep := by
  -- a thread that the step does not name is inside as it was, and is not brought back
  have others : ∀ {a : TimerAction (Thread cfg.numCpus)} {k t timer os},
      m.timer.step (devList _) a = some timer →
      m.os.step m.timer.currentTime (.timer k t) = some os → (∀ u ≠ t, a ≠ .test u) →
      ∀ u ≠ t, os.InTimer u → (timer.dev u).loc ≠ .working := by
    intro a k t timer os ticked moved only u other inside working
    have before := (Os.inTimer_congr (Os.place_others moved other)).mp inside
    exact ((Timer.step_devMove ticked u).back working).elim (inStep.inside u before)
      (only u other)
  have attached : ∀ {a : TimerAction (Thread cfg.numCpus)} {timer},
      m.timer.step (devList _) a = some timer → ∀ u, a ≠ .detach u →
        (m.os.Detached u ↔ (timer.dev u).loc = .detached) := by
    intro a timer ticked u no_detach
    rw [inStep.detached]
    refine ⟨(Timer.step_devMove ticked u).gone, fun gone => by_contra fun still => ?_⟩
    exact (Timer.step_devMove ticked u).attached still no_detach gone
  have detached : ∀ {k t os}, m.os.step m.timer.currentTime (.timer k t) = some os → ∀ u,
      (k = .detach → u ≠ t) → (os.Detached u ↔ m.os.Detached u) := by
    intro k t os moved u other
    refine ⟨fun gone => (Os.detached_step moved gone).resolve_right ?_, Os.Detached.step moved⟩
    rintro ⟨⟩
    exact other rfl rfl
  cases step_move h with
  | @work t os moved =>
      obtain ⟨-, out, out'⟩ := Os.work_workLeft moved
      refine ⟨fun u inside => ?_, fun u => ?_⟩
      · by_cases own : u = t
        · exact absurd (own ▸ inside) out'
        · exact inStep.inside u ((Os.inTimer_congr (Os.place_others moved own)).mp inside)
      · refine Iff.trans ⟨fun gone => ?_, Os.Detached.step moved⟩ (inStep.detached u)
        exact (Os.detached_step moved gone).resolve_right nofun
  | alone ticked _ no_detach =>
      exact ⟨fun u inside working => inStep.inside u inside (alone_back h ticked working),
        fun u => attached ticked u (no_detach u)⟩
  | @call t timer os ticked moved =>
      refine ⟨fun u inside => ?_, fun u =>
        (detached moved u nofun).trans (attached ticked u nofun)⟩
      by_cases own : u = t
      · subst own
        cases Timer.step_move ticked with
        | nextSlot =>
            rw [Timer.signalEvent_dev, Timer.setDev_same]
            nofun
      · exact others ticked moved nofun u own inside
  | @ret t timer os ticked back moved =>
      refine ⟨fun u inside => ?_, fun u =>
        (detached moved u nofun).trans (attached ticked u nofun)⟩
      by_cases own : u = t
      · exact absurd (own ▸ inside) (Os.ret_inTimer moved).2
      · exact others ticked moved (fun v other same => other (by cases same; rfl)) u own inside
  | @detach t timer os ticked moved =>
      have gone : (timer.dev t).loc = .detached := by
        cases Timer.step_move ticked with
        | detach =>
            rw [Timer.signalEvent_dev, Timer.setDev_same]
            rfl
      refine ⟨fun u inside => ?_, fun u => ?_⟩
      · by_cases own : u = t
        · rw [own, gone]
          nofun
        · exact others ticked moved nofun u own inside
      · by_cases own : u = t
        · exact own ▸ iff_of_true (Os.detach_detached moved) gone
        · refine (detached moved u fun _ => own).trans (attached ticked u ?_)
          rintro ⟨⟩
          exact own rfl

/-- What the rank depends on, thread by thread. -/
theorem left_congr (dev : m'.timer.dev t = m.timer.dev t)
    (work : m'.os.workLeft t = m.os.workLeft t)
    (pending : m'.timer.mark t = .pending ↔ m.timer.mark t = .pending) : m'.left t = m.left t := by
  rw [left, left, dev, work, decide_eq_decide.mpr pending]

theorem work_stepsLeft (co : m.Coupled)
    (moved : m.os.step m.timer.currentTime (.work t) = some os) :
    stepsLeft ⟨os, m.timer⟩ < m.stepsLeft := by
  obtain ⟨less, out, -⟩ := Os.work_workLeft moved
  refine sum_lt_of_one t (fun u other => left_congr rfl
    (Os.workLeft_congr (Os.place_others moved other)) Iff.rfl) (Nat.add_lt_add_left ?_ _)
  simp only [left, Device.left, co.atWork t out]
  omega

/-- A device is released in a slot once, and it is not at work then. -/
theorem release_left {x : Device} {now work : Nat} (ok : Timer.DevOk now .pending x) :
    x.release.left work false ≤ x.left work true := by
  unfold Device.release Device.signal Device.left
  cases here : x.loc with
  | working =>
      simp only [Timer.DevOk, here] at ok
      exact absurd ok.2.2.2.2 (by simp)
  | testing =>
      cases up : x.done with
      | true => simp
      | false =>
          simp only [Timer.DevOk, here, up] at ok
          simp at ok
  | waiting => simp
  | detached => simp

theorem round_stepsLeft (co : m.Coupled) (move : Timer.RoundMove (devList _) m.timer timer)
    (still : timer.time = m.timer.time) : stepsLeft ⟨m.os, timer⟩ < m.stepsLeft := by
  have same : timer.dev = m.timer.dev →
      (∀ t, timer.mark t = .pending ↔ m.timer.mark t = .pending) →
      timer.loc.left (cfg.numCpus + 1) < m.timer.loc.left (cfg.numCpus + 1) →
      stepsLeft ⟨m.os, timer⟩ < m.stepsLeft := by
    intro dev mark less
    have rest : ∑ t, left ⟨m.os, timer⟩ t = ∑ t, m.left t :=
      Finset.sum_congr rfl fun t _ => left_congr (congrFun dev t) rfl (mark t)
    rw [stepsLeft, stepsLeft, rest]
    exact Nat.add_lt_add_right less _
  cases move with
  | leave here | finish here | again here =>
      refine same rfl (fun t => ?_) ?_
      · simp [Timer.mark_pending, here]
      · simp [here, TimerLoc.left]
  | start here =>
      refine same rfl (fun t => ?_) ?_
      · simp [Timer.mark_pending, here]
      · simp [here, TimerLoc.left, devs_length]
  | tick here => exact absurd still (Nat.succ_ne_self _)
  | count here | block here =>
      refine same rfl (fun t => ?_) ?_
      · simp [Timer.mark_pending, here]
      · simp only [here, TimerLoc.left, List.length_cons]
        omega
  | @release d rest here =>
      have suffix := co.sync.suffix
      rw [Timer.remaining, here] at suffix
      have passed := (devList _).head_not_mem suffix
      have before : m.timer.mark d = .pending :=
        Timer.mark_pending.mpr ⟨_, here, List.mem_cons_self⟩
      have ok := before ▸ co.sync.devices d
      refine sum_lt_of_one d (fun u other => left_congr ?_ rfl ?_) ?_
      · exact (m.timer.setDev_dev d u _).trans (if_neg other)
      · simp [Timer.mark_pending, here, other]
      · refine Nat.add_lt_add_of_lt_of_le ?_ ?_
        · rw [here]
          simp only [TimerLoc.left, List.length_cons]
          omega
        · have after : ¬ Timer.mark { m.timer.setDev d (m.timer.dev d).release with
              loc := .release rest } d = .pending := by
            simp [Timer.mark_pending, passed]
          rw [left, left, decide_eq_true before, decide_eq_false after]
          exact (congrArg (Device.left _ _) (m.timer.setDev_same d _)).trans_le (release_left ok)

/-- The call wakes the timer where it waits for the device, which costs one section more. -/
theorem signal_left (s : Timer (Thread cfg.numCpus)) (d : Thread cfg.numCpus) (n : Nat) :
    (s.signalEvent d).loc.left n ≤ s.loc.left n + 1 := by
  rcases s.signalEvent_cases d with same | ⟨rest, here, moved⟩
  · rw [same]
    exact Nat.le_succ _
  · rw [moved, here]
    exact le_rfl

theorem call_stepsLeft (co : m.Coupled) (working : (m.timer.dev t).loc = .working)
    (moved : ∀ u ≠ t, os.workLeft u = m.os.workLeft u) {x : Device}
    (waits : x.left (os.workLeft t) false ≤ 1) :
    stepsLeft ⟨os, (m.timer.setDev t x).signalEvent t⟩ < m.stepsLeft := by
  have mark : ∀ u, ((m.timer.setDev t x).signalEvent t).mark u = m.timer.mark u :=
    fun u => (Timer.signalEvent_mark _ t u).trans rfl
  have signalled := signal_left (m.timer.setDev t x) t (cfg.numCpus + 1)
  rw [Timer.setDev_loc] at signalled
  have fresh : m.timer.mark t ≠ .pending := by
    rw [(co.sync.working working).2.2.2.2]
    nofun
  refine sum_lt_of_one t (fun u other => left_congr ?_ (moved u other) (by rw [mark])) ?_
  · rw [Timer.signalEvent_dev, Timer.setDev_dev, if_neg other]
  · have before : 3 ≤ m.left t := by
      rw [left, Device.left, working]
      exact Nat.le_add_left _ _
    have after : left ⟨os, (m.timer.setDev t x).signalEvent t⟩ t ≤ 1 := by
      rw [left, Timer.signalEvent_dev, Timer.setDev_same, mark, decide_eq_false fresh]
      exact waits
    dsimp only
    omega

/-- The test of next_slot: the device waits, or has its work in the new slot before it. -/
theorem test_stepsLeft (here : (m.timer.dev t).loc = .testing)
    (others : ∀ u ≠ t, os.workLeft u = m.os.workLeft u) :
    stepsLeft ⟨os, m.timer.setDev t (m.timer.dev t).test⟩ < m.stepsLeft := by
  refine sum_lt_of_one t (fun u other => left_congr ?_ (others u other) Iff.rfl)
    (Nat.add_lt_add_left ?_ _)
  · exact (m.timer.setDev_dev t u _).trans (if_neg other)
  · have work := os.workLeft_le t
    have tested : ∀ pending, (m.timer.dev t).test.left (os.workLeft t) pending <
        (m.timer.dev t).left (m.os.workLeft t) pending := by
      intro pending
      unfold Device.test Device.left
      rw [here]
      cases up : (m.timer.dev t).done with
      | true => cases pending <;> simp
      | false =>
          simp only [Bool.false_eq_true, if_false]
          omega
    rw [left, Timer.setDev_same]
    exact tested _

/-- The step lemma: a thread's own step uses up what is left, or the clock moves. -/
theorem own_stepsLeft (co : m.Coupled) {a : MachineAction cfg.numCpus}
    (own : Own a) (h : m.step a = some m') :
    m'.timer.time = m.timer.time ∧ m'.stepsLeft < m.stepsLeft ∨
      m'.timer.time = m.timer.time + 1 := by
  cases step_move h with
  | work moved => exact .inl ⟨rfl, work_stepsLeft co moved⟩
  | @alone a timer ticked no_call no_detach =>
      cases Timer.step_move ticked with
      | timer move =>
          rcases Timer.step_clock ticked with still | ⟨-, -, rfl⟩
          · exact .inl ⟨still, round_stepsLeft co move still⟩
          · exact .inr rfl
      | nextSlot => exact absurd rfl (no_call _)
      | @test t here =>
          exact .inl ⟨rfl, test_stepsLeft here fun _ _ => rfl⟩
      | detach => exact absurd rfl (no_detach _)
      | stop | spuriousTimer | spurious => exact own.elim
  | @call t timer os ticked moved =>
      have others := fun u other => Os.workLeft_congr (Os.place_others moved (u := u) other)
      cases Timer.step_move ticked with
      | nextSlot here =>
          refine .inl ⟨Timer.signalEvent_time _ _, call_stepsLeft co here others ?_⟩
          simp [Device.left, Device.nextSlot]
  | @ret t timer os ticked _ moved =>
      have others := fun u other => Os.workLeft_congr (Os.place_others moved (u := u) other)
      cases Timer.step_move ticked with
      | test here => exact .inl ⟨rfl, test_stepsLeft here others⟩
  | @detach t timer os ticked moved =>
      have others := fun u other => Os.workLeft_congr (Os.place_others moved (u := u) other)
      cases Timer.step_move ticked with
      | detach here =>
          refine .inl ⟨Timer.signalEvent_time _ _, call_stepsLeft co here others ?_⟩
          simp [Device.left, Device.detach]

end Steps

theorem reach_inStep (reach : Reach step (init cfg) m) : m.InStep :=
  reach.invariant (fun _ _ _ inStep h => InStep.step inStep h) (.init cfg)

/-- The run lemma: a run of own steps is shorter than one slot more than the clock shows. -/
theorem own_length_lt (reach : Reach step (init cfg) m) {as : List (MachineAction cfg.numCpus)}
    (runs : run step m as = some m') (own : ∀ a ∈ as, Own a) :
    as.length + m.timer.time * slotSteps cfg < (m'.timer.time + 1) * slotSteps cfg := by
  have few := length_le_of_rank (fun _ _ _ reach h => Reach.tail reach h)
    (fun (m : Machine cfg) a m' reach own h => by
      have less := stepsLeft_lt (reach_coupled (reach.tail h))
      exact (own_stepsLeft (reach_coupled reach) own h).imp_right fun ticks =>
        ⟨ticks, Nat.le_sub_one_of_lt less⟩)
    runs reach own
  have less := stepsLeft_lt (reach_coupled reach)
  have steps : slotSteps cfg - 1 + 1 = slotSteps cfg := Nat.sub_add_cancel (Nat.succ_pos _)
  rw [steps] at few
  rw [Nat.add_mul, Nat.one_mul]
  omega

/-- Whatever the order of the steps, and with no fairness asked of it: in any run without
spurious wake-ups the clock moves on by one with every so many steps. -/
theorem clock_advances (reach : Reach step (init cfg) m) {as : List (MachineAction cfg.numCpus)}
    (runs : run step m as = some m') (own : ∀ a ∈ as, Own a) {k : Nat}
    (many : k * slotSteps cfg ≤ as.length) : m.timer.currentTime + k ≤ m'.timer.currentTime := by
  have short := own_length_lt reach runs own
  have slots : (k + m.timer.time) * slotSteps cfg < (m'.timer.time + 1) * slotSteps cfg := by
    rw [Nat.add_mul]
    omega
  have later := Nat.lt_of_mul_lt_mul_right slots
  change m.timer.time + k ≤ m'.timer.time
  omega

/-- The rest of the run: both threads detach, and the timer ends with its next round. -/
def soloEnd : List (MachineAction solo.numCpus) :=
  List.flatten [soloRun, [.timer (.detach .loader), .timer (.detach (.cpu 0))],
    List.replicate 7 (.timer .timer)]

theorem clock_advances_solo : ∃ m : Machine solo, Transition.run step (init solo) soloEnd = some m ∧
    1 * slotSteps solo ≤ soloEnd.length ∧ 0 + 1 ≤ m.timer.currentTime := by
  have ends : (Transition.run step (init solo) soloEnd).isSome := by decide +kernel
  obtain ⟨m, runs⟩ := Option.isSome_iff_exists.mp ends
  have own : ∀ a ∈ soloEnd, Own a := by decide
  exact ⟨m, runs, by decide, clock_advances (.refl _) runs own (by decide)⟩

section Stalls
variable {t : Thread cfg.numCpus}

/-- A thread outside of timer.c has a step to take. -/
theorem outside_moves (co : m.Coupled) (out : ¬ m.os.InTimer t) :
    ∃ a, Own a ∧ (m.step a).isSome := by
  have working := co.atWork t out
  rcases m.os.outside_moves co.phases m.timer.currentTime out with own | call | detach
  · exact ⟨.work t, trivial, by rwa [step, Option.isSome_map]⟩
  · refine ⟨.timer (.nextSlot t), trivial, ?_⟩
    have ticked : m.timer.step (devList _) (.nextSlot t) = some _ := if_pos working
    rw [step, ticked]
    exact Option.isSome_map.trans call
  · refine ⟨.timer (.detach t), trivial, ?_⟩
    have ticked : m.timer.step (devList _) (.detach t) = some _ := if_pos working
    rw [step, ticked]
    exact Option.isSome_map.trans detach

/-- A device before its test has a step, in which its thread comes back from next_slot where
the slot is over. -/
theorem testing_moves (inStep : m.InStep) (inside : m.os.InTimer t)
    (here : (m.timer.dev t).loc = .testing) : ∃ a, Own a ∧ (m.step a).isSome := by
  have attached : ¬ m.os.Detached t := fun gone =>
    nomatch here.symm.trans ((inStep.detached t).mp gone)
  refine ⟨.timer (.test t), trivial, ?_⟩
  rw [step, Timer.step, if_pos here, Option.bind_some]
  unfold TimerAction.accompanied
  dsimp only
  split
  · exact Option.isSome_map.trans (m.os.ret_ready _ inside attached)
  · rfl

/-- Until the timer has ended, some thread or the timer has a step of its own to take. -/
theorem goes_on (reach : Reach step (init cfg) m) (running : m.timer.loc ≠ .exited) :
    ∃ a, Own a ∧ (m.step a).isSome := by
  have co := reach_coupled reach
  have inStep := reach_inStep reach
  obtain ⟨sync, live⟩ := Timer.reach_live (reach_timer reach)
  by_cases outside : ∃ t, ¬ m.os.InTimer t
  · obtain ⟨t, out⟩ := outside
    exact outside_moves co out
  · have all : ∀ t, m.os.InTimer t := fun t => by_contra fun out => outside ⟨t, out⟩
    have timer_moves : (m.timer.timerStep (devList _)).isSome → ∃ a, Own a ∧ (m.step a).isSome := by
      intro moves
      obtain ⟨timer, ticked⟩ := Option.isSome_iff_exists.mp moves
      refine ⟨.timer .timer, trivial, ?_⟩
      rw [step, Timer.step, ticked]
      rfl
    cases at_timer : m.timer.loc with
    | exited => exact absurd at_timer running
    | top =>
        apply timer_moves
        simp only [Timer.timerStep, at_timer]
        split <;> rfl
    | release rest =>
        apply timer_moves
        cases rest with
        | nil =>
            simp only [Timer.timerStep, at_timer]
            split <;> rfl
        | cons t rest => simp [Timer.timerStep, at_timer]
    | examine rest =>
        apply timer_moves
        cases rest with
        | nil => simp [Timer.timerStep, at_timer]
        | cons t rest =>
            simp only [Timer.timerStep, at_timer]
            split <;> rfl
    | waiting t rest =>
        -- the timer waits for a device with no flag up, which stands before its test
        obtain ⟨down, unfinished⟩ := live.blocked t rest at_timer
        have ok := sync.devices t
        cases loc : (m.timer.dev t).loc with
        | working => exact absurd loc (inStep.inside t (all t))
        | testing => exact testing_moves inStep (all t) loc
        | waiting =>
            simp only [Timer.DevOk, loc] at ok
            exact absurd (ok.2.2.1 trivial) (by simp [down])
        | detached =>
            simp only [Timer.DevOk, loc] at ok
            exact absurd ok.1 (by simp [unfinished])

theorem exited_detached (reach : Reach step (init cfg) m) (ended : m.timer.loc = .exited)
    (t : Thread cfg.numCpus) : m.os.Detached t :=
  ((reach_inStep reach).detached t).mpr ((Timer.reach_live (reach_timer reach)).2.exited ended t)

/-- The simulator has no deadlock: some thread or the timer has a step of its own to take, unless
the timer has ended, and then all threads have detached and nothing is left to do. -/
theorem never_stalls (reach : Reach step (init cfg) m) :
    ((∃ a, Own a ∧ (m.step a).isSome) ↔ m.timer.loc ≠ .exited) ∧
      (m.timer.loc = .exited → ∀ t, m.os.Detached t) := by
  refine ⟨⟨fun ⟨a, own, moves⟩ ended => ?_, goes_on reach⟩, exited_detached reach⟩
  have gone := exited_detached reach ended
  have dev := fun t => ((reach_inStep reach).detached t).mp (gone t)
  obtain ⟨m', h⟩ := Option.isSome_iff_exists.mp moves
  match a with
  | .work t =>
      obtain ⟨os, moved, -⟩ := Option.map_eq_some_iff.mp h
      exact (Os.work_workLeft moved).2.1 (gone t).inTimer
  | .timer a =>
      obtain ⟨timer, ticked, -⟩ := Option.bind_eq_some_iff.mp h
      cases Timer.step_move ticked with
      | timer move =>
          cases move with
          | leave here | start here | tick here | count here | block here | finish here
          | again here | release here => cases ended.symm.trans here
      | nextSlot here | test here | detach here => cases (dev _).symm.trans here
      | stop | spuriousTimer | spurious => exact own.elim

/-- The timer waits for the CPU, which has yet to use its slot. -/
theorem never_stalls_solo : ∃ m : Machine solo, Reach step (init solo) m ∧
    m.timer.timerStep (devList _) = none ∧ ∃ a, Own a ∧ (m.step a).isSome := by
  obtain ⟨m, through, blocked, running⟩ : ∃ m ∈ Transition.run step (init solo)
      ([.work .loader, .work .loader, .timer (.nextSlot .loader)] ++
        List.replicate 3 (.timer .timer)),
      (m.timer.timerStep (devList _)).isNone = true ∧ 0 < m.timer.loc.left 2 := by
    decide +kernel
  exact ⟨m, ⟨_, through⟩, Option.isNone_iff_eq_none.mp blocked,
    (never_stalls ⟨_, through⟩).1.mpr fun ended => absurd running (by rw [ended]; nofun)⟩

end Stalls

end Machine
end OsSim
