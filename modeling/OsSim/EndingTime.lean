import OsSim.Ending

/-! When the simulation ends. Past the last deadline the work is over, so that by then it is
settled whether the timer ends, and it ends in the next slots or never. -/
namespace OsSim
open Transition

/-- The loader calls next_slot no more when the slots of the processes are over. -/
theorem Loader.OnTime.calls_le {cfg : Config} {calls : Nat} {ld : Loader}
    (on : ld.OnTime cfg calls) : calls ≤ cfg.free cfg.numProcesses := by
  have before : ∀ {p}, p < cfg.numProcesses → cfg.slot p ≤ cfg.free cfg.numProcesses :=
    fun inside => (Earliest.slot_lt_free.mpr inside).le
  unfold OnTime at on
  cases here : ld.loc <;> rw [here] at on
  case early => exact on.2.2.le.trans (Earliest.due_le_slot.trans (before on.1))
  case ready => exact on.2.trans_le (before on.1)
  case added =>
    rcases Nat.lt_or_eq_of_le on.1 with more | all
    · exact (Nat.le_succ _).trans (on.2.trans_le (Earliest.free_le_slot.trans (before more)))
    · exact (Nat.le_succ _).trans_eq (all ▸ on.2)
  case leaving | detached => exact on.2.trans_le (on.1 ▸ le_rfl)
  case test | earlySlot | addedSlot =>
    rcases on with ⟨more, -, no_later⟩ | ⟨all, now⟩
    · exact no_later.trans (before more)
    · exact now.trans_le (all ▸ le_rfl)

namespace Config

/-- The last of the deadlines. -/
def horizon (cfg : Config) : Nat :=
  (List.range cfg.numProcesses).foldr (fun p last => max (cfg.deadline p) last) 0

theorem deadline_le {cfg : Config} {p : Nat} (inside : p < cfg.numProcesses) :
    cfg.deadline p ≤ cfg.horizon := by
  have each : ∀ ps : List Nat, p ∈ ps →
      cfg.deadline p ≤ ps.foldr (fun q last => max (cfg.deadline q) last) 0 := by
    intro ps member
    induction ps with
    | nil => cases member
    | cons q ps ih =>
        rcases List.mem_cons.mp member with rfl | later
        · exact le_max_left _ _
        · exact (ih later).trans (le_max_right _ _)
  exact each _ (List.mem_range.mpr inside)

theorem free_le (cfg : Config) : cfg.free cfg.numProcesses ≤ cfg.horizon := by
  cases last : cfg.numProcesses with
  | zero => exact Nat.zero_le _
  | succ p =>
      have turns : 1 ≤ cfg.demand p := le_max_left _ _
      have bound : cfg.slot p + cfg.demand p ≤ cfg.deadline p :=
        (Nat.le_add_right _ _).trans (Nat.le_add_right _ _)
      calc cfg.free (p + 1) = cfg.slot p + 1 := rfl
        _ ≤ cfg.deadline p := (Nat.add_le_add_left turns _).trans bound
        _ ≤ cfg.horizon := deadline_le (last ▸ Nat.lt_succ_self p)

end Config

namespace Os
variable {cfg : Config} {s : Os cfg}

/-- The loader leaves its loop past `done = 1` only. -/
theorem reach_done (reach : Reach free (Os.init cfg) s) :
    s.ld.loc = .leaving ∨ s.ld.loc = .detached → s.done = true := by
  refine reach.invariant (P := fun s : Os cfg => s.ld.loc = .leaving ∨ s.ld.loc = .detached →
    s.done = true) ?_ (by rintro (gone | gone) <;> cases gone)
  rintro s ⟨now, a⟩ s' closed h
  cases step_move h with
  | cpu move =>
      obtain ⟨ld, done, -⟩ := move.frame
      rwa [ld, done]
  | loader move =>
      cases move with
      | finish => exact fun _ => rfl
      | early | due | add => rintro (gone | gone) <;> cases gone
  | cpuTimer => exact closed
  | @ldTimer k _ after =>
      intro gone
      refine closed ?_
      cases k <;> cases here : s.ld.loc <;> rw [here] at after <;> cases after <;> simp at gone ⊢

theorem Over.noneLost (ended : s.Over) : s.NoneLost :=
  fun p added unfinished => absurd (ended.finished p added) unfinished

/-- Where all processes that were added have finished no queue holds one. -/
theorem Tracks.ended {st : Nat → Stage cfg.numCpus} (t : Tracks st s) (done : s.done = true)
    (finished : ∀ p < s.ld.i, s.Finished p) : s.Over where
  done := done
  finished := finished
  empty l inside := by
    refine List.eq_nil_iff_forall_not_mem.mpr fun p waits => ?_
    have place := ((t.waiting l inside p).mp waits).1
    have added : p < s.ld.i := by
      by_contra late
      rw [(t.unborn p).mpr (not_lt.mp late)] at place
      cases place
    rw [(t.finished p).mp (finished p added)] at place
    cases place

end Os

namespace Machine
variable {cfg : Config} {m m' : Machine cfg}

theorem step_time {a : MachineAction cfg.numCpus} (h : m.step a = some m') :
    m.timer.time ≤ m'.timer.time ∧ m'.timer.time ≤ m.timer.time + 1 := by
  cases step_move h with
  | work => exact ⟨le_rfl, Nat.le_succ _⟩
  | alone ticked | call ticked | ret ticked | detach ticked =>
      refine ⟨Timer.step_time_le ticked, ?_⟩
      rcases Timer.step_clock ticked with still | ⟨-, -, rfl⟩
      · exact still.trans_le (Nat.le_succ _)
      · exact le_rfl

/-- Past the last deadline the work is over. -/
theorem over_of_late (cpus : 0 < cfg.numCpus)
    (prio : ∀ p < cfg.numProcesses, cfg.prio p < maxPrio) (reach : Reach step (init cfg) m)
    (kept : m.os.NoneLost) (late : cfg.horizon < m.timer.time) : m.os.Over := by
  have co := reach_coupled reach
  obtain ⟨st, t⟩ := co.tracked
  obtain ⟨marks, on⟩ := reach_onSchedule reach
  have gone : m.os.ld.loc = .detached := by
    by_contra still
    have calls := co.sync.time_le_calls (on.attached still)
    exact absurd late (not_lt.mpr (calls.trans (on.onTime.calls_le.trans cfg.free_le)))
  refine t.ended (Os.reach_done (reach_os reach) (.inr gone)) fun p added => ?_
  have inside := added.trans_le t.added
  exact finished_of_late cpus prio reach kept inside ((Config.deadline_le inside).trans_lt late)

/-- Past the last deadline it is settled whether the simulation ends. -/
def Decided (m : Machine cfg) : Prop :=
  m.os.NoneLost → cfg.horizon < m.timer.time →
    m.Closing (cfg.horizon + 1) ∨ ∃ c, (m.os.cpu c).loc.Around

theorem Decided.step (cpus : 0 < cfg.numCpus)
    (prio : ∀ p < cfg.numProcesses, cfg.prio p < maxPrio) (reach : Reach Machine.step (init cfg) m)
    (decided : m.Decided) {a : MachineAction cfg.numCpus} (h : m.step a = some m') :
    m'.Decided := by
  intro kept late
  have before := noneLost_before (reach_coupled reach) prio h kept
  by_cases later : cfg.horizon < m.timer.time
  · rcases decided before later with closing | ⟨c, around⟩
    · exact .inl (closing.step reach h)
    · have idle := (over_of_late cpus prio reach before later).idle (reach_os reach)
      exact .inr ⟨c, around_step idle h around⟩
  · have reach' := reach.tail h
    have idle := (over_of_late cpus prio reach' kept late).idle (reach_os reach')
    refine idle.out_or_around.imp_left fun out => ⟨idle, out, .inl ?_⟩
    have ticks := (step_time h).2
    exact le_antisymm (by omega) late

theorem reach_decided (cpus : 0 < cfg.numCpus)
    (prio : ∀ p < cfg.numProcesses, cfg.prio p < maxPrio) (reach : Reach step (init cfg) m) :
    m.Decided := by
  have both := reach.invariant (P := fun m => Reach step (init cfg) m ∧ m.Decided)
    (fun _ _ _ both h => ⟨both.1.tail h, both.2.step cpus prio both.1 h⟩)
    ⟨.refl _, fun _ late => absurd late (Nat.not_lt_zero _)⟩
  exact both.2

/-- If the timer has ended, it has done so soon after the last deadline. -/
theorem ended_in_time (cpus : 0 < cfg.numCpus)
    (prio : ∀ p < cfg.numProcesses, cfg.prio p < maxPrio) (reach : Reach step (init cfg) m)
    (kept : m.os.NoneLost) (ended : m.timer.loc = .exited) : m.timer.time ≤ cfg.horizon + 2 := by
  by_contra late
  rcases reach_decided cpus prio reach kept (by omega) with closing | ⟨c, around⟩
  · exact late closing.clock.time_le
  · exact around_not_exited reach around ended

/-- The simulation ends by a slot that the configuration determines, or never: a run of so many
steps that has lost no process does not come to an end any more. -/
theorem ends_in_time_or_never (cpus : 0 < cfg.numCpus)
    (prio : ∀ p < cfg.numProcesses, cfg.prio p < maxPrio) {as : List (MachineAction cfg.numCpus)}
    (runs : run step (init cfg) as = some m) (kept : m.os.NoneLost) :
    (m.timer.loc = .exited → m.timer.currentTime ≤ cfg.horizon + 2) ∧
    ((∀ a ∈ as, Own a) → (cfg.horizon + 3) * slotSteps cfg ≤ as.length →
      ∀ m', Reach step m m' → m'.timer.loc ≠ .exited) := by
  have reach : Reach step (init cfg) m := ⟨as, runs⟩
  refine ⟨ended_in_time cpus prio reach kept, fun own many m' later ended => ?_⟩
  have short := own_length_lt (.refl _) runs own
  have started : (init cfg).timer.time = 0 := rfl
  rw [started, Nat.zero_mul, Nat.add_zero] at short
  have late : cfg.horizon + 3 < m.timer.time + 1 := Nat.lt_of_mul_lt_mul_right (many.trans_lt short)
  -- no process can be lost after the last deadline
  have none_left := over_of_late cpus prio reach kept (by omega)
  have idle := later.invariant (P := fun m => m.os.Idle) (fun _ _ _ idle h => (idle_step idle h).1)
    (none_left.idle (reach_os reach))
  have clock : m.timer.time ≤ m'.timer.time := later.invariant (P := fun m' => _ ≤ m'.timer.time)
    (fun _ _ _ before h => before.trans (step_time h).1) le_rfl
  have soon := ended_in_time cpus prio (reach.trans later) idle.ended.noneLost ended
  omega

/-- The CPU goes round for some slots more. -/
def soloOn : List (MachineAction solo.numCpus) :=
  soloIdle ++ (List.replicate 5 (soloIdle.drop 80)).flatten

theorem ends_in_time_or_never_solo : solo.horizon = 2 ∧ soloOn.length = 140 ∧
    ∃ m : Machine solo, run step (init solo) soloOn = some m ∧
      ∀ m', Reach step m m' → m'.timer.loc ≠ .exited := by
  have own : ∀ a ∈ soloOn, Own a := by decide +kernel
  obtain ⟨m, through, kept⟩ : ∃ m ∈ run step (init solo) soloOn, m.os.NoneLost := by
    decide +kernel
  have ends := ends_in_time_or_never (by decide) (by decide) through kept
  exact ⟨by decide +kernel, by decide +kernel, m, through, ends.2 own (by decide +kernel)⟩

end Machine
end OsSim
