import OsSim.Lifecycle

/-! enqueue drops a process that meets a full queue. In every interleaving that is the
only way a process can be lost. -/
namespace OsSim
open Transition

namespace Os
variable {cfg : Config}

/-- Each added process that has not been reported finished waits at its level or is held. -/
def NoneLost (s : Os cfg) : Prop :=
  ∀ p < s.ld.i, ¬ s.Finished p →
    p ∈ s.sched.level (cfg.prio p) ∨ ∃ c, (s.cpu c).held = some p

/-- The step enqueues nothing, or its process meets a level with a slot left. -/
def HasRoom (s : Os cfg) (a : OsAction cfg.numCpus) : Prop := ∀ p, ¬ s.MeetsFull a p

instance : DecidablePred (@NoneLost cfg) := fun s =>
  inferInstanceAs (Decidable (∀ p < s.ld.i, _ → _ ∨ _))

instance (s : Os cfg) (a : OsAction cfg.numCpus) : Decidable (s.HasRoom a) :=
  decidable_of_iff (∀ p ∈ s.enqueues a, ¬ s.sched.Full (cfg.prio p))
    ⟨fun room p meets => room p meets.1 meets.2, fun room p enq full => room p ⟨enq, full⟩⟩

theorem Tracks.noneLost_iff {st : Nat → Stage cfg.numCpus} {s : Os cfg} (t : Tracks st s)
    (prio : ∀ p < cfg.numProcesses, cfg.prio p < maxPrio) :
    s.NoneLost ↔ ∀ p, st p ≠ .lost := by
  have inside : ∀ p < s.ld.i, cfg.prio p < maxPrio := fun p h => prio p (h.trans_le t.added)
  constructor
  · intro none_lost p lost
    have added : p < s.ld.i := by
      by_contra late
      rw [(t.unborn p).mpr (not_lt.mp late)] at lost
      cases lost
    have unfinished : ¬ s.Finished p := by
      rw [t.finished, lost]
      nofun
    rcases none_lost p added unfinished with waits | ⟨c, holds⟩
    · rw [t.waiting _ (inside p added), lost] at waits
      cases waits.1
    · rw [t.held, lost] at holds
      cases holds
  · intro kept p added unfinished
    rw [t.finished] at unfinished
    rw [t.waiting _ (inside p added)]
    simp only [t.held]
    cases place : st p with
    | unborn => exact absurd ((t.unborn p).mp place) (not_le.mpr added)
    | waiting => exact .inl ⟨rfl, trivial⟩
    | held c => exact .inr ⟨c, rfl⟩
    | finished => exact absurd place unfinished
    | lost => exact absurd place (kept p)

/-- A step loses a process exactly when it enqueues one on a full level. -/
theorem Tracks.noneLost_step {st : Nat → Stage cfg.numCpus} {s s' : Os cfg} (t : Tracks st s)
    (prio : ∀ p < cfg.numProcesses, cfg.prio p < maxPrio) (before : s.NoneLost) {now : Nat}
    {a : OsAction cfg.numCpus} (h : s.step now a = some s') : s'.NoneLost ↔ s.HasRoom a := by
  obtain ⟨st', t', lost⟩ := t.step h
  have kept := (t.noneLost_iff prio).mp before
  rw [t'.noneLost_iff prio]
  refine forall_congr' fun p => not_congr ?_
  rw [lost]
  exact or_iff_right (kept p)

/-- Over every run: no process is ever lost exactly when no add_proc or put_proc of the
run meets a full level. -/
theorem none_lost_iff (prio : ∀ p < cfg.numProcesses, cfg.prio p < maxPrio)
    (as : List (Nat × OsAction cfg.numCpus)) :
    Always free NoneLost (Os.init cfg) as ↔
      EachStep free (fun s a => s.HasRoom a.2) (Os.init cfg) as := by
  refine always_iff_eachStep (I := fun s => ∃ st, Tracks st s) ?_ ?_ ⟨_, .init⟩ ?_ as
  · rintro s a s' ⟨st, t⟩ h
    exact (t.step h).imp fun _ moved => moved.1
  · rintro s a s' ⟨st, t⟩ before h
    exact t.noneLost_step prio before h
  · exact fun p added => absurd added (Nat.not_lt_zero p)

def crowd : Config where
  timeSlot := 1
  numCpus := 1
  numProcesses := 11
  ldProcesses := fun _ => ⟨0, 0, 0, List.replicate 20 ⟨.calc, 0, 0, 0⟩⟩

/-- One time slot: the loader adds a process, then the CPU runs its round. -/
def crowdSlot (now : Nat) : List (Nat × OsAction crowd.numCpus) :=
  let round := if now = 0 then 3 else 4
  let labels : List (OsAction 1) := List.replicate 2 (.work .loader) ++ .timer .call .loader ::
    List.replicate round (.work (.cpu 0)) ++
    [.timer .call (.cpu 0), .timer .ret .loader, .timer .ret (.cpu 0)]
  labels.map (now, ·)

theorem none_lost_iff_crowd :
    Always free NoneLost (Os.init crowd) ((List.range 10).flatMap crowdSlot) :=
  (none_lost_iff (by decide) _).mpr (by decide +kernel)

/-- In the eleventh the loader fills the level while the CPU holds a process, whose
put_proc is then dropped. -/
theorem process_lost : ¬ ∀ cfg : Config, 1 ≤ cfg.timeSlot →
    (∀ p < cfg.numProcesses, cfg.prio p < maxPrio) →
    ∀ s, Reach free (Os.init cfg) s → s.NoneLost := by
  intro claim
  obtain ⟨s, reached, lost⟩ :
      ∃ s ∈ Transition.run free (Os.init crowd) ((List.range 11).flatMap crowdSlot),
        ¬ s.NoneLost := by
    decide +kernel
  exact lost (claim crowd (by decide) (by decide) s ⟨_, reached⟩)

end Os
end OsSim
