import OsSim.ResponseBound

/-! The end of the simulator. Once the work is over the timer ends with the threads, within two
slots, unless a CPU has missed its test of done; it goes round with the timer for ever. -/
namespace OsSim
open Transition

/-- A CPU still in its loop that leaves it in the iteration it is in. -/
def CpuLoc.Out (loc : CpuLoc) : Prop := loc.InLoop → loc.BeforeTest

theorem CpuLoc.Out.next {loc : CpuLoc} (out : loc.Out) : loc.idleNext.Out := by
  cases loc with
  | afterFinish | afterPut => exact fun _ => .inr (.inr rfl)
  | recheck | leaving | detached => exact fun inLoop => absurd inLoop (by simp [idleNext, InLoop])
  | top | running | slotDue | inSlot =>
      exact absurd (out (by decide)) (by simp [BeforeTest])

theorem CpuLoc.Around.next {loc : CpuLoc} (around : loc.Around) : loc.idleNext.Around :=
  around.iterate 1

theorem CpuLoc.Around.not_out {loc : CpuLoc} (around : loc.Around) : ¬ loc.Out := by
  intro out
  rcases around with rfl | rfl | rfl <;> simpa [BeforeTest] using out (by decide)

namespace Os
variable {cfg : Config} {s : Os cfg}

theorem Idle.out_or_around (idle : s.Idle) :
    (∀ c, (s.cpu c).loc.Out) ∨ ∃ c, (s.cpu c).loc.Around := by
  by_cases out : ∀ c, (s.cpu c).loc.Out
  · exact .inl out
  · obtain ⟨c, missed⟩ := not_forall.mp out
    obtain ⟨inLoop, missed⟩ := Classical.not_imp.mp missed
    exact .inr ⟨c, (idle.place inLoop).resolve_left missed⟩

end Os

instance {cfg : Config} : DecidablePred (@Os.Over cfg) := fun s =>
  decidable_of_iff (s.done = true ∧ (∀ p < s.ld.i, s.Finished p) ∧
    ∀ l < maxPrio, s.sched.level l = [])
    ⟨fun ⟨done, finished, empty⟩ => ⟨done, finished, empty⟩,
      fun ended => ⟨ended.done, ended.finished, ended.empty⟩⟩

namespace Timer
variable {ι : Type*}

/-- The flag of a device that is counted out goes up in detach_event only. -/
theorem DevMove.fsh {d : ι} {x y : Device} {a : TimerAction ι} (move : DevMove d x a y)
    (other : a ≠ .detach d) : y.fsh = x.fsh := by
  have signal : ∀ z : Device, z.signal.fsh = z.fsh := fun z => by
    unfold Device.signal
    split <;> rfl
  cases move with
  | same | nextSlot => rfl
  | signal => exact signal x
  | release => exact signal _
  | test =>
      unfold Device.test
      split <;> rfl
  | detach => exact absurd rfl other

/-- Until the clock moves, the round has counted as finished just those of the devices it has
examined that are. -/
def Exact (D : DevList ι) (s : Timer ι) : Prop :=
  (∀ rest, s.loc ≠ .release rest) → ∀ seen, Counted D s seen →
    s.fsh = seen.countP fun d => (s.dev d).fsh

theorem Exact.init (D : DevList ι) : Exact D (init : Timer ι) := fun _ _ counted => counted.elim

/-- Before the clock moves the timer has examined all devices: if all are finished, it ends. -/
theorem Exact.agree {D : DevList ι} {s : Timer ι} (exact_so_far : Exact D s) (live : Live D s)
    (here : s.loc = .examine []) (gone : ∀ d, (s.dev d).fsh = true) : s.fsh = s.event := by
  have counted : Counted D s D.devs := by
    rw [Counted, here]
    exact (List.append_nil _).symm
  have before : ∀ rest, s.loc ≠ .release rest := by simp [here]
  rw [exact_so_far before _ counted, (live.tally _ counted).event]
  exact List.countP_eq_length.mpr fun d _ => gone d

/-- The clock moves at most once more, and then the timer comes to its end. -/
def Closing (now : Nat) (s : Timer ι) : Prop :=
  s.time = now ∨
    s.time = now + 1 ∧ s.fsh = s.event ∧ ((∃ rest, s.loc = .release rest) ∨ s.loc = .exited)

theorem Closing.time_le {now : Nat} {s : Timer ι} (closing : s.Closing now) :
    s.time ≤ now + 1 := by
  rcases closing with still | ⟨later, -, -⟩
  · exact still.trans_le (Nat.le_succ _)
  · exact later.le

section Steps
variable [DecidableEq ι] {D : DevList ι} {s s' : Timer ι} {now : Nat}

theorem counted_mark {seen : List ι} (counted : Counted D s seen)
    (before : ∀ rest, s.loc ≠ .release rest) {d : ι} (examined : d ∈ seen) :
    s.mark d = .counted := by
  have away : ∀ {rest}, D.devs = seen ++ rest → d ∉ rest := by
    intro rest whole left
    exact List.disjoint_of_nodup_append (whole ▸ D.nodup) examined left
  unfold Counted at counted
  unfold mark
  cases here : s.loc with
  | top | exited =>
      rw [here] at counted
      exact counted.elim
  | examine | waiting =>
      rw [here] at counted
      exact if_neg (away counted)
  | release rest => exact absurd here (before rest)

/-- A step of a device, or one that leaves the counters alone. -/
theorem Exact.beside (exact_so_far : Exact D s) (fsh : s'.fsh = s.fsh)
    (release : ∀ rest, s.loc = .release rest → s'.loc = .release rest)
    (counted : ∀ seen, Counted D s' seen → Counted D s seen)
    (dev : ∀ d, s.mark d = .counted → (s'.dev d).fsh = (s.dev d).fsh) : Exact D s' := by
  intro before seen examined
  have before' : ∀ rest, s.loc ≠ .release rest := fun rest here => before rest (release rest here)
  rw [fsh, exact_so_far before' seen (counted seen examined)]
  refine List.countP_congr fun d member => ?_
  rw [dev d (counted_mark (counted seen examined) before' member)]

/-- A section of next_slot or detach_event, with its signal to the timer. -/
theorem Exact.signalled (sync : Sync D s) (exact_so_far : Exact D s) {d : ι} {x : Device}
    (here : (s.dev d).loc = .working) : Exact D ((s.setDev d x).signalEvent d) := by
  have release : ∀ rest, s.loc = .release rest →
      ((s.setDev d x).signalEvent d).loc = .release rest := by
    intro rest at_rest
    rcases (s.setDev d x).signalEvent_cases d with same | ⟨_, waits, -⟩
    · rw [same, setDev_loc, at_rest]
    · cases at_rest.symm.trans waits
  refine exact_so_far.beside ?_ release (fun _ => signalEvent_counted (s := s.setDev d x) d) ?_
  · rcases (s.setDev d x).signalEvent_cases d with same | ⟨_, _, moved⟩ <;> simp only [*] <;> rfl
  · intro e counted
    have other : e ≠ d := by
      rintro rfl
      cases counted.symm.trans (sync.working here).2.2.2.2
    rw [signalEvent_dev, setDev_dev, if_neg other]

theorem Exact.round (sync : Sync D s) (exact_so_far : Exact D s) (move : RoundMove D s s') :
    Exact D s' := by
  cases move with
  | leave | finish | again => exact fun _ _ counted => counted.elim
  | start =>
      intro _ seen counted
      have none_seen : seen = [] := List.append_left_eq_self.mp (Eq.symm counted)
      rw [none_seen]
      rfl
  | tick => exact fun before => absurd rfl (before _)
  | release => exact fun before => absurd rfl (before _)
  | @count d rest here =>
      intro _ seen counted
      -- the device just counted is the last one seen
      have suffix := sync.suffix
      rw [remaining, here] at suffix
      obtain ⟨before, whole⟩ := suffix
      have last : seen = before ++ [d] := by
        have same : seen ++ rest = before ++ [d] ++ rest := by
          rw [List.append_assoc]
          exact (Eq.symm counted).trans whole.symm
        exact List.append_cancel_right same
      have earlier : Counted D s before := by
        rw [Counted, here]
        exact whole.symm
      rw [last, List.countP_append, List.countP_singleton,
        ← exact_so_far (by simp [here]) before earlier]
      dsimp only
      split <;> rfl
  | block here =>
      refine exact_so_far.beside rfl (by simp [here]) (fun seen counted => ?_) fun _ _ => rfl
      rw [Counted, here]
      exact counted

theorem Exact.step (sync : Sync D s) (exact_so_far : Exact D s) {a : TimerAction ι}
    (h : s.step D a = some s') : Exact D s' := by
  cases step_move h with
  | timer move => exact exact_so_far.round sync move
  | nextSlot here | detach here => exact exact_so_far.signalled sync here
  | test | spurious =>
      exact exact_so_far.beside rfl (fun _ => id) (fun _ => id) fun d _ =>
        (step_devMove h d).fsh nofun
  | stop => exact exact_so_far.beside rfl (fun _ => id) (fun _ => id) fun _ _ => rfl
  | spuriousTimer here =>
      refine exact_so_far.beside rfl (by simp [here]) (fun seen counted => ?_) fun _ _ => rfl
      rw [Counted, here]
      exact counted

theorem reach_exact (reach : Reach (step D) init s) : Exact D s := by
  have both := reach.invariant (P := fun s => Sync D s ∧ Exact D s)
    (fun _ _ _ both h => ⟨both.1.step h, both.2.step both.1 h⟩) ⟨Sync.init D, Exact.init D⟩
  exact both.2

theorem Closing.signalled {t : Timer ι} (closing : t.Closing now) (d : ι) :
    (t.signalEvent d).Closing now := by
  rcases t.signalEvent_cases d with same | ⟨rest, here, moved⟩
  · rwa [same]
  · rcases closing with still | ⟨-, -, ⟨_, at_rest⟩ | ended⟩
    · exact .inl ((t.signalEvent_time d).trans still)
    · cases here.symm.trans at_rest
    · cases here.symm.trans ended

/-- The step lemma, where all devices are finished when the clock moves. -/
theorem Closing.step (closing : s.Closing now) (agree : s.loc = .examine [] → s.fsh = s.event)
    {a : TimerAction ι} (h : s.step D a = some s') : s'.Closing now := by
  rcases closing with still | ⟨later, same, loc⟩
  · rcases step_clock h with kept | ⟨-, here, rfl⟩
    · exact .inl (kept.trans still)
    · exact .inr ⟨congrArg (· + 1) still, agree here, .inl ⟨_, rfl⟩⟩
  · have away : ∀ {l : TimerLoc ι}, s.loc = l → (∀ rest, l ≠ .release rest) → l ≠ .exited → False :=
      fun here no_release no_exit => loc.elim
        (fun ⟨rest, at_rest⟩ => no_release rest (here.symm.trans at_rest))
        fun ended => no_exit (here.symm.trans ended)
    cases step_move h with
    | timer move =>
        cases move with
        | leave here | start here | tick here | count here | block here =>
            exact (away here nofun nofun).elim
        | finish => exact .inr ⟨later, same, .inr rfl⟩
        | again _ differ => exact absurd same differ
        | release => exact .inr ⟨later, same, .inl ⟨_, rfl⟩⟩
    | @nextSlot d | @detach d =>
        exact Closing.signalled (t := s.setDev d _) (.inr ⟨later, same, loc⟩) d
    | test | spurious | stop => exact .inr ⟨later, same, loc⟩
    | spuriousTimer here => exact (away here nofun nofun).elim

end Steps
end Timer

namespace Machine
variable {cfg : Config} {m m' : Machine cfg}

/-- A run of its own steps is always shorter than that, and stops with the timer at its end only. -/
def EndsWithin (m : Machine cfg) (n : Nat) : Prop :=
  ∀ as m', run step m as = some m' → (∀ a ∈ as, Own a) →
    as.length < n ∧ ((∃ a, Own a ∧ (m'.step a).isSome) ∨ m'.timer.loc = .exited)

/-- The work is over, and so will be the simulation. -/
structure Closing (now : Nat) (m : Machine cfg) : Prop where
  idle : m.os.Idle
  out : ∀ c, (m.os.cpu c).loc.Out
  clock : m.timer.Closing now

section Steps
variable {now : Nat}

theorem idle_step (idle : m.os.Idle) {a : MachineAction cfg.numCpus} (h : m.step a = some m') :
    m'.os.Idle ∧ ∀ c, (m'.os.cpu c).loc = (m.os.cpu c).loc ∨
      (m'.os.cpu c).loc = (m.os.cpu c).loc.idleNext := by
  have moves : ∀ {b}, m.os.step m.timer.currentTime b = some m'.os → m'.os.Idle ∧ ∀ c,
      (m'.os.cpu c).loc = (m.os.cpu c).loc ∨
        (m'.os.cpu c).loc = (m.os.cpu c).loc.idleNext := by
    intro b moved
    obtain ⟨idle', next⟩ := idle.step moved
    refine ⟨idle', fun c => ?_⟩
    rw [next]
    split
    · exact .inr rfl
    · exact .inl rfl
  cases step_move h with
  | alone => exact ⟨idle, fun _ => .inl rfl⟩
  | work moved | call _ moved | ret _ _ moved | detach _ moved => exact moves moved

theorem around_step (idle : m.os.Idle) {a : MachineAction cfg.numCpus} (h : m.step a = some m')
    {c : Fin cfg.numCpus} (around : (m.os.cpu c).loc.Around) : (m'.os.cpu c).loc.Around := by
  rcases (idle_step idle h).2 c with same | next
  · exact same ▸ around
  · exact next ▸ around.next

/-- When the clock moves, the CPUs on their way out and the loader have detached. -/
theorem Closing.agree (reach : Reach step (init cfg) m) (closing : m.Closing now)
    (here : m.timer.loc = .examine []) : m.timer.fsh = m.timer.event := by
  have co := reach_coupled reach
  have inStep := reach_inStep reach
  obtain ⟨sync, live⟩ := Timer.reach_live (reach_timer reach)
  have gone : ∀ t, m.os.Detached t := by
    intro t
    cases t with
    | cpu c =>
        rcases slot_over co inStep here c with ⟨inside, -⟩ | gone
        · have before := closing.out c (by rw [inside]; exact ⟨nofun, nofun⟩)
          rw [inside] at before
          simp [CpuLoc.BeforeTest] at before
        · exact .inl (congrArg Sum.inl gone)
    | loader =>
        rcases closing.idle.phases.done closing.idle.ended.done with leaving | gone
        · have working := co.atWork .loader (by simp [Os.InTimer, LdLoc.InTimer, leaving])
          have fresh := (sync.working working).2.2.2.2
          simp [Timer.mark, here] at fresh
        · exact .inr (congrArg Sum.inr gone)
  refine (Timer.reach_exact (reach_timer reach)).agree live here fun t => ?_
  have ok := sync.devices t
  rw [Timer.DevOk, (inStep.detached t).mp (gone t)] at ok
  exact ok.1

theorem Closing.step (reach : Reach step (init cfg) m) (closing : m.Closing now)
    {a : MachineAction cfg.numCpus} (h : m.step a = some m') : m'.Closing now := by
  obtain ⟨idle, next⟩ := idle_step closing.idle h
  refine ⟨idle, fun c => ?_, ?_⟩
  · rcases next c with same | next
    · exact same ▸ closing.out c
    · exact next ▸ (closing.out c).next
  · have agree := closing.agree reach
    cases step_move h with
    | work => exact closing.clock
    | alone ticked | call ticked | ret ticked | detach ticked =>
        exact closing.clock.step agree ticked

end Steps

/-- The run lemma. -/
theorem closing_run {now : Nat} (reach : Reach step (init cfg) m) (closing : m.Closing now)
    (later : Reach step m m') : m'.Closing now := by
  have both := later.invariant (P := fun m => Reach step (init cfg) m ∧ m.Closing now)
    (fun _ _ _ both h => ⟨both.1.tail h, both.2.step both.1 h⟩) ⟨reach, closing⟩
  exact both.2

/-- A CPU that goes round keeps the timer going. -/
theorem around_run (idle : m.os.Idle) {c : Fin cfg.numCpus} (around : (m.os.cpu c).loc.Around)
    (later : Reach step m m') : m'.os.Idle ∧ (m'.os.cpu c).loc.Around :=
  later.invariant (P := fun m => m.os.Idle ∧ (m.os.cpu c).loc.Around)
    (fun _ _ _ both h => ⟨(idle_step both.1 h).1, around_step both.1 h both.2⟩) ⟨idle, around⟩

theorem around_not_exited (reach : Reach step (init cfg) m) {c : Fin cfg.numCpus}
    (around : (m.os.cpu c).loc.Around) : m.timer.loc ≠ .exited := by
  intro ended
  rcases exited_detached reach ended (.cpu c) with gone | gone
  · rw [Sum.inl.inj gone] at around
    simp [CpuLoc.Around] at around
  · cases gone

theorem closing_endsWithin (reach : Reach step (init cfg) m) (closing : m.Closing m.timer.time) :
    m.EndsWithin (2 * slotSteps cfg) := by
  intro as m' runs own
  have reach' := reach.trans ⟨as, runs⟩
  constructor
  · have short := own_length_lt reach runs own
    have soon := (closing_run reach closing ⟨as, runs⟩).clock.time_le
    have slots : (m'.timer.time + 1) * slotSteps cfg ≤ (m.timer.time + 2) * slotSteps cfg :=
      Nat.mul_le_mul_right _ (Nat.succ_le_succ soon)
    rw [Nat.add_mul m.timer.time] at slots
    exact Nat.lt_of_add_lt_add_right ((short.trans_le slots).trans_eq (Nat.add_comm _ _))
  · by_cases ended : m'.timer.loc = .exited
    · exact .inr ended
    · exact .inl (goes_on reach' ended)

/-- Once the work is over, the simulation ends if and only if the CPUs that are still in their loop
are all on their way to the test of done; and if it does not, the timer never ends. -/
theorem ends_iff (reach : Reach step (init cfg) m) (ended : m.os.Over) :
    (m.EndsWithin (2 * slotSteps cfg) ↔
      ∀ c, (m.os.cpu c).loc.InLoop → (m.os.cpu c).loc.BeforeTest) ∧
    (m.EndsWithin (2 * slotSteps cfg) ∨ ∀ m', Reach step m m' → m'.timer.loc ≠ .exited) := by
  have idle := ended.idle (reach_os reach)
  have ends : (∀ c, (m.os.cpu c).loc.Out) → m.EndsWithin (2 * slotSteps cfg) := fun out =>
    closing_endsWithin reach ⟨idle, out, .inl rfl⟩
  rcases idle.out_or_around with out | ⟨c, around⟩
  · exact ⟨iff_of_true (ends out) out, .inl (ends out)⟩
  · have never : ∀ m', Reach step m m' → m'.timer.loc ≠ .exited := fun m' later =>
      around_not_exited (reach.trans later) (around_run idle around later).2
    refine ⟨iff_of_false (fun within => ?_) (fun out => around.not_out (out c)), .inr never⟩
    obtain ⟨as, m', runs, own, length⟩ := long_run Own
      (fun m' later => goes_on (reach.trans later) (never m' later)) (2 * slotSteps cfg)
    exact absurd length (within as m' runs own).1.ne

/-- With the loader at its end first, the CPU is on its way out when it has reported the process;
with the CPU first it goes round for ever. -/
theorem ends_iff_solo : (∃ m : Machine solo, Reach step (init solo) m ∧ m.EndsWithin 56) ∧
    ∃ m : Machine solo, Reach step (init solo) m ∧ ¬ m.EndsWithin 56 := by
  constructor
  · obtain ⟨m, through, ended, reported⟩ : ∃ m ∈ run step (init solo)
        (soloRun.take (soloRun.length - 2)), m.os.Over ∧ ∀ c, (m.os.cpu c).loc = .afterFinish := by
      decide +kernel
    exact ⟨m, ⟨_, through⟩, (ends_iff ⟨_, through⟩ ended).1.mpr fun c _ => .inl (reported c)⟩
  · obtain ⟨m, through, ended, top⟩ : ∃ m ∈ run step (init solo) soloIdle,
        m.os.Over ∧ (m.os.cpu 0).loc = .top := by
      decide +kernel
    refine ⟨m, ⟨_, through⟩, fun within => ?_⟩
    have before := (ends_iff ⟨_, through⟩ ended).1.mp within 0 (by rw [top]; exact ⟨nofun, nofun⟩)
    simp [top, CpuLoc.BeforeTest] at before

end Machine
end OsSim
