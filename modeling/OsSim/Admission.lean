import OsSim.Earliest
import OsSim.Shutdown

/-! When the loader adds the processes. It knows the slot by the clock, which stands still
while it is at work, and the calls of next_slot it has made are as many as the slots before. -/
namespace OsSim
open Transition

/-- What ld_routine does to the other threads, and the slot it does it in. -/
inductive LdMark where
  | added (p slot : Nat)
  | closed (slot : Nat)
  deriving DecidableEq

namespace Config

/-- The slot that the process is due to be added in. -/
def slot (cfg : Config) : Nat → Nat := Earliest.slot cfg.startTime

/-- The first slot after those of so many processes. -/
def free (cfg : Config) : Nat → Nat := Earliest.free cfg.startTime

/-- So many processes, in the order of the configuration, each added in its slot. -/
def schedule (cfg : Config) (i : Nat) : List LdMark :=
  Slots.listing (fun p => .added p (cfg.slot p)) i

end Config

/-- Where the loader stands against the schedule, by the next_slot calls it has made. -/
def Loader.OnTime (cfg : Config) (calls : Nat) (ld : Loader) : Prop :=
  match ld.loc with
  | .test | .earlySlot | .addedSlot =>
      ld.i < cfg.numProcesses ∧ cfg.free ld.i ≤ calls ∧ calls ≤ cfg.slot ld.i ∨
        ld.i = cfg.numProcesses ∧ calls = cfg.free ld.i
  | .early => ld.i < cfg.numProcesses ∧ cfg.free ld.i ≤ calls ∧ calls < cfg.startTime ld.i
  | .ready => ld.i < cfg.numProcesses ∧ calls = cfg.slot ld.i
  | .added => ld.i ≤ cfg.numProcesses ∧ calls + 1 = cfg.free ld.i
  | .leaving | .detached => ld.i = cfg.numProcesses ∧ calls = cfg.free ld.i

section Loader
variable {cfg : Config} {calls : Nat} {s s' : Os cfg}

/-- The loader moves by itself outside of timer.c only. -/
theorem Os.LdMove.outside {now : Nat} (move : LdMove now s s') : ¬ s.InTimer .loader := by
  rintro (inside | inside | inside)
  all_goals
    cases move with
    | early here | due here | finish here | add here => cases inside.symm.trans here

/-- It has not set `done` before. -/
theorem Os.LdMove.going {now : Nat} (move : LdMove now s s') (ph : s.Phases) :
    s.done = false := by
  by_contra ended
  rcases ph.done (by simpa using ended) with gone | gone
  all_goals
    cases move with
    | early here | due here | finish here | add here => cases gone.symm.trans here

/-- The loader's own steps, which find as many calls made as the clock shows. -/
theorem Loader.OnTime.work (on : s.ld.OnTime cfg calls) (move : Os.LdMove calls s s') :
    s'.ld.OnTime cfg calls := by
  unfold OnTime at on
  cases move with
  | early here inside early =>
      rw [here] at on
      obtain ⟨-, free_now, -⟩ := on.resolve_right fun all => absurd all.1 inside.ne
      exact ⟨inside, free_now, early⟩
  | due here inside due =>
      rw [here] at on
      obtain ⟨-, free_now, no_later⟩ := on.resolve_right fun all => absurd all.1 inside.ne
      exact ⟨inside, Earliest.slot_of_due free_now no_later (Nat.le_of_not_lt due)⟩
  | finish here past =>
      rw [here] at on
      exact on.resolve_left fun more => absurd more.1 past
  | add here =>
      rw [here] at on
      obtain ⟨inside, now⟩ := on
      exact ⟨inside, congrArg (· + 1) now⟩

/-- A call of next_slot leads on to the next slot. -/
theorem Loader.OnTime.call {loc : LdLoc} (on : s.ld.OnTime cfg calls)
    (after : s.ld.loc.after .call = some loc) :
    Loader.OnTime cfg (calls + 1) ⟨loc, s.ld.i⟩ := by
  unfold OnTime at on
  cases here : s.ld.loc <;> rw [here] at after <;> cases after
  · rw [here] at on
    obtain ⟨inside, free_now, early⟩ := on
    exact .inl ⟨inside, Nat.le_succ_of_le free_now,
      Nat.succ_le_of_lt (early.trans_le Earliest.due_le_slot)⟩
  · rw [here] at on
    obtain ⟨inside, now⟩ := on
    rcases Nat.lt_or_eq_of_le inside with more | all
    · exact .inl ⟨more, now.ge, now.trans_le Earliest.free_le_slot⟩
    · exact .inr ⟨all, now⟩

/-- Its return, and detach_event, change nothing of that. -/
theorem Loader.OnTime.after {k : TimerCall} {loc : LdLoc} (on : s.ld.OnTime cfg calls)
    (after : s.ld.loc.after k = some loc) (no_call : k ≠ .call) :
    Loader.OnTime cfg calls ⟨loc, s.ld.i⟩ := by
  unfold OnTime at on
  cases k <;> cases here : s.ld.loc <;> rw [here] at after <;> cases after <;> rw [here] at on
  · exact absurd rfl no_call
  · exact absurd rfl no_call
  · exact on
  · exact on
  · exact on

/-- The clock is past the slots of processes that have been added. -/
theorem Loader.OnTime.added {ld : Loader} (on : ld.OnTime cfg calls) {p : Nat}
    (inside : p < cfg.numProcesses) (past : cfg.slot p < calls) : p < ld.i := by
  have before : ∀ {i}, cfg.slot p < cfg.slot i → p < i := Earliest.slot_strictMono.lt_iff_lt.mp
  unfold OnTime at on
  cases here : ld.loc <;> rw [here] at on
  case early => exact before (past.trans (on.2.2.trans_le Earliest.due_le_slot))
  case ready => exact before (on.2 ▸ past)
  case added => exact Earliest.slot_lt_free.mp (past.trans (Nat.lt_of_succ_le on.2.le))
  case leaving | detached => exact on.1 ▸ inside
  case test | earlySlot | addedSlot =>
    rcases on with ⟨-, -, no_later⟩ | ⟨all, -⟩
    · exact before (past.trans_le no_later)
    · exact all ▸ inside

theorem Loader.OnTime.inside {ld : Loader} (on : ld.OnTime cfg calls) :
    ld.i ≤ cfg.numProcesses := by
  unfold OnTime at on
  cases here : ld.loc <;> rw [here] at on
  case early | ready => exact on.1.le
  case added => exact on.1
  case leaving | detached => exact on.1.le
  case test | earlySlot | addedSlot =>
    rcases on with ⟨more, -⟩ | ⟨all, -⟩
    · exact more.le
    · exact all.le

end Loader

namespace Machine
variable {cfg : Config} {m m' : Machine cfg}

/-- The mark of a step: the loader calls add_proc, or it sets `done`. -/
def ldMarks (m : Machine cfg) (a : MachineAction cfg.numCpus) (m' : Machine cfg) : List LdMark :=
  match a with
  | .work .loader =>
      if m.os.ld.loc = .ready then [.added m.os.ld.i m.timer.currentTime]
      else if m'.os.done then [.closed m.timer.currentTime]
      else []
  | _ => []

/-- The loader is on time, and the marks so far are those of the schedule. -/
structure OnSchedule (m : Machine cfg) (past : List LdMark) : Prop where
  attached : m.os.ld.loc ≠ .detached → (m.timer.dev .loader).loc ≠ .detached
  onTime : m.os.ld.OnTime cfg (m.timer.dev .loader).calls
  record : past.reverse = cfg.schedule m.os.ld.i ++
    if m.os.done then [.closed (cfg.free cfg.numProcesses)] else []

section Steps
variable {past : List LdMark} {os : Os cfg} {timer : Timer (Thread cfg.numCpus)}

theorem OnSchedule.init (cfg : Config) : (init cfg).OnSchedule [] where
  attached _ := nofun
  onTime := by
    rcases Nat.eq_zero_or_pos cfg.numProcesses with none | some
    · exact .inr ⟨none.symm, rfl⟩
    · exact .inl ⟨some, le_rfl, Nat.zero_le _⟩
  record := rfl

/-- A step of timer.c in which the loader has no part. -/
theorem OnSchedule.other (on : m.OnSchedule past) {a : TimerAction (Thread cfg.numCpus)}
    (ticked : m.timer.step (devList _) a = some timer) (ld : os.ld = m.os.ld)
    (done : os.done = m.os.done) (no_call : a ≠ .nextSlot .loader)
    (no_detach : a ≠ .detach .loader) : OnSchedule ⟨os, timer⟩ past := by
  obtain ⟨attached, onTime, record⟩ := on
  have move := Timer.step_devMove ticked .loader
  rw [← ld] at attached onTime
  rw [← ld, ← done] at record
  exact ⟨fun here => move.attached (attached here) no_detach,
    (move.calls no_call).symm ▸ onTime, record⟩

/-- A call, a return or a detach of the loader. -/
theorem OnSchedule.ldTimer (on : m.OnSchedule past) {loc : LdLoc}
    (attached : loc ≠ .detached → (timer.dev .loader).loc ≠ .detached)
    (onTime : Loader.OnTime cfg (timer.dev .loader).calls ⟨loc, m.os.ld.i⟩) :
    OnSchedule ⟨{ m.os with ld := ⟨loc, m.os.ld.i⟩ }, timer⟩ past :=
  ⟨attached, onTime, on.record⟩

/-- The loader's own steps. The slot it marks is the one on the clock, which shows as many
slots as it has made calls. -/
theorem OnSchedule.loader (co : m.Coupled) (on : m.OnSchedule past)
    (move : Os.LdMove m.timer.currentTime m.os os) :
    OnSchedule ⟨os, m.timer⟩ (m.ldMarks (.work .loader) ⟨os, m.timer⟩ ++ past) := by
  have going := move.going co.phases
  have working := co.atWork .loader move.outside
  have attached : (m.timer.dev .loader).loc ≠ .detached := by
    rw [working]
    nofun
  have calls := (co.sync.working working).1
  obtain ⟨-, onTime, record⟩ := on
  rw [calls] at onTime
  have onTime' := onTime.work move
  rw [going] at record
  have marked : ∀ {x}, m.ldMarks (.work .loader) ⟨os, m.timer⟩ = [x] →
      (m.ldMarks (.work .loader) ⟨os, m.timer⟩ ++ past).reverse =
        cfg.schedule m.os.ld.i ++ [x] := by
    intro x mark
    rw [mark, List.singleton_append, List.reverse_cons, record]
    exact congrArg (· ++ [x]) (List.append_nil _)
  refine ⟨fun _ => attached, calls.symm ▸ onTime', ?_⟩
  cases move with
  | early here | due here =>
      rw [ldMarks, here]
      simpa [going] using record
  | finish here =>
      obtain ⟨all, now⟩ : m.os.ld.i = cfg.numProcesses ∧ m.timer.time = cfg.free m.os.ld.i :=
        onTime'
      rw [marked (x := .closed m.timer.time) (by rw [ldMarks, here]; rfl), now, all]
      rfl
  | add here =>
      unfold Loader.OnTime at onTime
      rw [here] at onTime
      rw [marked (x := .added m.os.ld.i m.timer.time) (by rw [ldMarks, here]; rfl), onTime.2,
        Config.schedule, ← Slots.listing_succ]
      dsimp only [Os.note_done, Os.note_ld]
      rw [going]
      exact (List.append_nil _).symm

/-- The step lemma. -/
theorem OnSchedule.step (co : m.Coupled) (on : m.OnSchedule past)
    {a : MachineAction cfg.numCpus} (h : m.step a = some m') :
    m'.OnSchedule (m.ldMarks a m' ++ past) := by
  cases step_move h with
  | work moved =>
      cases Os.step_move moved with
      | cpu move =>
          obtain ⟨ld, done, -⟩ := move.frame
          obtain ⟨attached, onTime, record⟩ := on
          rw [← ld] at attached onTime
          rw [← ld, ← done] at record
          exact ⟨attached, onTime, record⟩
      | loader move => exact on.loader co move
  | alone ticked no_call no_detach => exact on.other ticked rfl rfl (no_call _) (no_detach _)
  | call ticked moved =>
      cases Os.step_move moved with
      | cpuTimer => exact on.other ticked rfl rfl nofun nofun
      | ldTimer after =>
          have working : (m.timer.dev .loader).loc = .working := by
            cases Timer.step_move ticked with
            | nextSlot here => exact here
          refine on.ldTimer (fun _ => ?_) ?_
          · refine (Timer.step_devMove ticked .loader).attached ?_ nofun
            rw [working]
            nofun
          · rw [Timer.nextSlot_calls ticked]
            exact on.onTime.call after
  | ret ticked back moved =>
      cases Os.step_move moved with
      | cpuTimer => exact on.other ticked rfl rfl nofun nofun
      | ldTimer after =>
          refine on.ldTimer (fun _ => ?_) ?_
          · rw [back]
            nofun
          · rw [(Timer.step_devMove ticked _).calls nofun]
            exact on.onTime.after after nofun
  | detach ticked moved =>
      cases Os.step_move moved with
      | cpuTimer => exact on.other ticked rfl rfl nofun nofun
      | ldTimer after =>
          refine on.ldTimer (fun still => ?_) ?_
          · cases here : m.os.ld.loc <;> rw [here] at after <;> cases after
            exact absurd rfl still
          · rw [(Timer.step_devMove ticked _).calls nofun]
            exact on.onTime.after after nofun

end Steps

/-- The loader keeps to the schedule: it adds the processes in order, each in its slot, and sets
`done` in a later slot than theirs; no slot passes without the process that is due in it. -/
structure KeepsSchedule (m : Machine cfg) (past : List LdMark) : Prop where
  order : m.os.done = false ∧ past.reverse = cfg.schedule m.os.ld.i ∧
      m.os.ld.i ≤ cfg.numProcesses ∨
    m.os.done = true ∧ ∃ slot,
      past.reverse = cfg.schedule cfg.numProcesses ++ [LdMark.closed slot] ∧
        ∀ p < cfg.numProcesses, cfg.slot p < slot
  punctual : ∀ p < cfg.numProcesses, cfg.slot p < m.timer.currentTime →
    .added p (cfg.slot p) ∈ past

theorem OnSchedule.keeps {past : List LdMark} (co : m.Coupled) (on : m.OnSchedule past) :
    m.KeepsSchedule past := by
  obtain ⟨attached, onTime, record⟩ := on
  have ended : m.os.ld.loc = .leaving ∨ m.os.ld.loc = .detached →
      m.os.ld.i = cfg.numProcesses := by
    unfold Loader.OnTime at onTime
    rintro (gone | gone)
    all_goals
      rw [gone] at onTime
      exact onTime.1
  refine ⟨?_, ?_⟩
  · cases done : m.os.done with
    | false =>
        rw [done] at record
        exact .inl ⟨rfl, record.trans (List.append_nil _), onTime.inside⟩
    | true =>
        rw [done, ended (co.phases.done done)] at record
        exact .inr ⟨rfl, _, record, fun p inside => Earliest.slot_lt_free.mpr inside⟩
  · intro p inside past_slot
    have added : p < m.os.ld.i := by
      by_cases gone : m.os.ld.loc = .detached
      · exact ended (.inr gone) ▸ inside
      · exact onTime.added inside (past_slot.trans_le (co.sync.time_le_calls (attached gone)))
    refine List.mem_reverse.mp (record ▸ List.mem_append_left _ ?_)
    exact Slots.mem_listing.mpr ⟨p, added, rfl⟩

/-- The schedule of any run, beside the marks of the loader: the processes are added in the
order of the configuration, one a slot at most, none before its start time and none later
than that allows. -/
theorem admission_schedule {as : List (MachineAction cfg.numCpus)}
    (runs : run step (init cfg) as = some m) :
    ∃ past, run (recorded step ldMarks) (init cfg, []) as = some (m, past) ∧
      m.KeepsSchedule past ∧ StrictMono cfg.slot ∧
      (∀ p, cfg.startTime p ≤ cfg.slot p) ∧
      ∀ times : Nat → Nat, StrictMono times → (∀ p, cfg.startTime p ≤ times p) →
        ∀ p, cfg.slot p ≤ times p := by
  obtain ⟨past, recorded_runs, reach, on⟩ := run_beside
    (P := fun m past => Reach step (init cfg) m ∧ m.OnSchedule past)
    (fun m a m' past inside moved =>
      ⟨inside.1.tail moved, inside.2.step (reach_coupled inside.1) moved⟩)
    runs ⟨.refl _, .init cfg⟩
  exact ⟨past, recorded_runs, on.keeps (reach_coupled reach), Earliest.slot_strictMono,
    fun _ => Earliest.due_le_slot, fun _ => Earliest.slot_least⟩

/-- Two processes, the first of which starts later than the second. -/
def disordered : Config where
  timeSlot := 2
  numCpus := 1
  numProcesses := 2
  ldProcesses := fun p => ⟨1 - p, 0, 0, []⟩

/-- The loader waits for a slot, and then needs one for each of them. -/
def disorderedRun : List (MachineAction disordered.numCpus) :=
  let c : Fin disordered.numCpus := ⟨0, Nat.one_pos⟩
  let slot : List (MachineAction disordered.numCpus) := List.flatten
    [[.timer (.nextSlot .loader), .timer (.nextSlot (.cpu c))], List.replicate 7 (.timer .timer),
      [.timer (.test .loader), .timer (.test (.cpu c))]]
  List.flatten
    [[.work (.cpu c), .work .loader], slot, [.work (.cpu c), .work .loader, .work .loader], slot,
      [.work .loader, .work .loader]]

theorem admission_schedule_disordered : ∃ m past,
    run (recorded step ldMarks) (init disordered, []) disorderedRun = some (m, past) ∧
      past = [.added 1 2, .added 0 1] ∧ m.KeepsSchedule past := by
  have marked : (run (recorded step ldMarks) (init disordered, []) disorderedRun).map Prod.snd =
      some [.added 1 2, .added 0 1] := by decide +kernel
  obtain ⟨⟨m, past⟩, recorded_runs, same⟩ := Option.map_eq_some_iff.mp marked
  have runs : run step (init disordered) disorderedRun = some m := by
    rw [← run_recorded ldMarks (init disordered) [], recorded_runs]
    rfl
  obtain ⟨past', recorded_runs', keeps, -⟩ := admission_schedule runs
  rw [recorded_runs] at recorded_runs'
  obtain rfl : past = past' := (Prod.mk.inj (Option.some.inj recorded_runs')).2
  exact ⟨m, past, recorded_runs, same, keeps⟩

end Machine
end OsSim
