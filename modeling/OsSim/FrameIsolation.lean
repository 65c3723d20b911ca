import OsSim.Paging
import OsSim.Possession
import OsSim.Transition

/-! Several processes on one RAM device. pg_getpage hands the frame over by the number of
the victim page, which is the victim's own frame only where page and frame agree. -/
namespace OsSim
open Transition Possession

/-- The devices and the processes, each of which swaps to one of the swap devices. -/
structure MemSystem (ι : Type*) where
  mram : Memphy
  mswp : Nat → Memphy
  mm : ι → Mm
  activeMswp : ι → Nat

namespace MemSystem
variable {ι : Type*} [DecidableEq ι]

def caller (s : MemSystem ι) (i : ι) : Caller := ⟨s.mm i, s.mram, s.mswp (s.activeMswp i)⟩

/-- The state after a call made for process `i` has left its caller as `c`. -/
def putBack (s : MemSystem ι) (i : ι) (c : Caller) : MemSystem ι :=
  { s with
    mram := c.mram
    mswp := Function.update s.mswp (s.activeMswp i) c.activeMswp
    mm := Function.update s.mm i c.mm }

def getpage (s : MemSystem ι) (a : ι × Pgn) : Option Nat × MemSystem ι :=
  let r := (s.caller a.1).pgGetpage a.2
  (r.1, s.putBack a.1 r.2)

def step (s : MemSystem ι) (a : ι × Pgn) : Option (MemSystem ι) := some (s.getpage a).2

def frame (s : MemSystem ι) (x : ι × Pgn) : Option Nat := (s.mm x.1).frame x.2

/-- The resident pages of all processes sit in different frames, none of them free. -/
def Isolated (s : MemSystem ι) : Prop := Exclusive s.frame s.mram.freeFpList

def Foreign (s : MemSystem ι) (i : ι) (fpn : Nat) : Prop :=
  ∃ x : ι × Pgn, x.1 ≠ i ∧ s.frame x = some fpn

/-- After the call the processes are isolated, and the frame it returned is not another
process's. -/
def KeepsIsolated (s : MemSystem ι) (a : ι × Pgn) : Prop :=
  (s.getpage a).2.Isolated ∧ ∀ fpn, (s.getpage a).1 = some fpn → ¬ (s.getpage a).2.Foreign a.1 fpn

/-- A fault that goes through finds the frame with the victim's number in nobody's hands but
the victim's; the entry of a page that was swapped out does not show a foreign frame. -/
structure Sound (s : MemSystem ι) (a : ι × Pgn) : Prop where
  fault : ¬ PtePresent ((s.mm a.1).pgd a.2) → ∀ vicpgn ∈ (s.mm a.1).fifoPgn.getLast?,
    (s.mswp (s.activeMswp a.1)).freeFpList ≠ [] →
    vicpgn.val % 2 ^ 13 ∉ s.mram.freeFpList ∧
      ∀ x ≠ (a.1, vicpgn), s.frame x ≠ some (vicpgn.val % 2 ^ 13)
  swapped : PtePresent ((s.mm a.1).pgd a.2) → PteSwapped ((s.mm a.1).pgd a.2) →
    ¬ s.Foreign a.1 (pteFpn ((s.mm a.1).pgd a.2))

theorem putBack_frame (s : MemSystem ι) (i : ι) (c : Caller) (x : ι × Pgn) :
    (s.putBack i c).frame x = if x.1 = i then c.mm.frame x.2 else s.frame x := by
  simp only [frame, putBack, Function.update_apply]
  split <;> rfl

theorem putBack_frame_same (s : MemSystem ι) (i : ι) {c : Caller}
    (same : c.mm.frame = (s.mm i).frame) : (s.putBack i c).frame = s.frame := by
  funext x
  rw [putBack_frame]
  split
  · rename_i own
    rw [same, ← own]
    rfl
  · rfl

/-- A fault as the frames see it: the victim loses its own, the page gets one. -/
theorem putBack_frame_fault (s : MemSystem ι) (i : ι) {c : Caller} {vicpgn pgn : Pgn}
    {fpn : Nat} (frame : c.mm.frame =
      Function.update (Function.update (s.mm i).frame vicpgn none) pgn (some fpn)) :
    (s.putBack i c).frame =
      Function.update (Function.update s.frame (i, vicpgn) none) (i, pgn) (some fpn) := by
  funext ⟨j, q⟩
  rw [putBack_frame, frame]
  by_cases own : j = i
  · subst own
    simp [Function.update_apply, MemSystem.frame]
  · simp [own]

omit [DecidableEq ι] in
theorem Isolated.not_foreign {s : MemSystem ι} (iso : s.Isolated) {i : ι} {pgn : Pgn} {fpn : Nat}
    (own : s.frame (i, pgn) = some fpn) : ¬ s.Foreign i fpn := by
  rintro ⟨x, other, holds⟩
  exact other (congrArg Prod.fst (iso.single _ _ _ holds own))

theorem Isolated.keeps_iff_sound {s : MemSystem ι} (iso : s.Isolated) (a : ι × Pgn) :
    s.KeepsIsolated a ↔ s.Sound a := by
  obtain ⟨i, pgn⟩ := a
  have spec := (s.caller i).pgGetpage_spec pgn
  have iso_of : ∀ {c : Caller}, c.mram = s.mram → c.mm.frame = (s.mm i).frame →
      (s.putBack i c).Isolated := by
    intro c mram frame
    unfold Isolated
    rw [putBack_frame_same s i frame, show (s.putBack i c).mram = s.mram from mram]
    exact iso
  unfold KeepsIsolated getpage
  generalize (s.caller i).pgGetpage pgn = r at spec ⊢
  obtain ⟨res, c⟩ := r
  cases spec with
  | hit present =>
      have foreign : ∀ fpn, (s.putBack i (s.caller i)).Foreign i fpn ↔ s.Foreign i fpn := by
        intro fpn
        unfold Foreign
        rw [putBack_frame_same s i rfl]
      constructor
      · rintro ⟨_, own⟩
        exact ⟨fun absent => absurd present absent,
          fun _ _ reached => own _ rfl ((foreign _).mpr reached)⟩
      · intro sound
        refine ⟨iso_of rfl rfl, ?_⟩
        intro fpn eq reached
        obtain rfl := Option.some.inj eq
        have reached := (foreign _).mp reached
        by_cases out : PteSwapped ((s.mm i).pgd pgn)
        · exact sound.swapped present out reached
        · have own : s.frame (i, pgn) = some (pteFpn ((s.mm i).pgd pgn)) := if_pos ⟨present, out⟩
          exact iso.not_foreign own reached
  | noVictim absent fifo =>
      refine ⟨fun _ => ⟨fun _ v member => ?_, fun present => absurd present absent⟩,
        fun _ => ⟨iso_of rfl rfl, nofun⟩⟩
      rw [show (s.mm i).fifoPgn = [] from fifo] at member
      cases member
  | noSwap absent _ full =>
      exact ⟨fun _ => ⟨fun _ _ _ room => absurd full room, fun present => absurd present absent⟩,
        fun _ => ⟨iso_of rfl rfl, nofun⟩⟩
  | @fault vicpgn rest c' absent fifo room mram _ frame _ =>
      have empty : s.frame (i, pgn) = none := pteFrame_absent absent
      have handed := putBack_frame_fault s i frame
      have isolated : (s.putBack i c).Isolated ↔ vicpgn.val % 2 ^ 13 ∉ s.mram.freeFpList ∧
          ∀ x ≠ (i, vicpgn), s.frame x ≠ some (vicpgn.val % 2 ^ 13) := by
        unfold Isolated
        rw [handed, show (s.putBack i c).mram = s.mram from mram]
        exact iso.handOver_iff empty
      have last : (s.mm i).fifoPgn.getLast? = some vicpgn := by
        rw [show (s.mm i).fifoPgn = rest ++ [vicpgn] from fifo]
        simp
      constructor
      · rintro ⟨after, _⟩
        refine ⟨?_, fun present => absurd present absent⟩
        intro _ v member _
        rw [last] at member
        exact Option.some.inj member ▸ isolated.mp after
      · intro sound
        have after := isolated.mpr (sound.fault absent vicpgn last room)
        refine ⟨after, ?_⟩
        intro fpn eq
        obtain rfl := Option.some.inj eq
        have own : (s.putBack i c).frame (i, pgn) = some (vicpgn.val % 2 ^ 13) := by
          rw [handed, Function.update_self]
        exact after.not_foreign own

/-- Over every sequence of calls from an isolated state: the processes stay isolated, and
no call returns a foreign frame, exactly when each call is sound where it is made. -/
theorem keepsIsolated_iff {s : MemSystem ι} (iso : s.Isolated) (as : List (ι × Pgn)) :
    EachStep step KeepsIsolated s as ↔ EachStep step Sound s as := by
  refine eachStep_iff (I := Isolated) ?_ (fun s a _ iso _ => iso.keeps_iff_sound a) iso as
  rintro s a t _ keeps h
  exact Option.some.inj h ▸ keeps.1

/-- Two processes after one alloc_pages_range each on a RAM of two frames: page 0 of
process i sits in frame i. -/
def twoCallers : MemSystem (Fin 2) where
  mram := ⟨fun _ => 0, 512, true, []⟩
  mswp := fun _ => ⟨fun _ => 0, 512, true, [0, 1]⟩
  mm := fun i => (Mm.init.setPte 0 (pteSetFpn 0 i)).enlistPgnNode 0
  activeMswp := fun _ => 0

theorem twoCallers_frame (x : Fin 2 × Pgn) :
    twoCallers.frame x = if x.2 = 0 then some x.1.val else none := by
  have fits : x.1.val % 2 ^ 13 = x.1.val := Nat.mod_eq_of_lt (by omega)
  have empty : pteFrame (0 : BitVec 32) = none := by decide
  change ((Mm.init.setPte 0 (pteSetFpn 0 x.1)).frame x.2) = _
  rw [Mm.setPte_frame, pteSetFpn_frame, fits, Function.update_apply]
  exact if_congr Iff.rfl rfl empty

theorem twoCallers_isolated : twoCallers.Isolated := by
  refine ⟨?_, fun _ _ _ => List.not_mem_nil⟩
  intro x y f hx hy
  rw [twoCallers_frame, Option.ite_none_right_eq_some] at hx hy
  exact Prod.ext (Fin.ext (Option.some.inj (hx.2.trans hy.2.symm))) (hx.1.trans hy.1.symm)

/-- A fault of process 0: its victim is page 0, and frame 0 is that page's. -/
theorem keepsIsolated_iff_twoCallers : EachStep step KeepsIsolated twoCallers [(0, 1)] := by
  refine (keepsIsolated_iff twoCallers_isolated [(0, 1)]).mpr fun _ _ => ⟨⟨fun _ v member _ => ?_,
    fun present => absurd present (by decide)⟩, trivial⟩
  have victim : v = 0 := Option.some.inj (Eq.symm member)
  subst victim
  refine ⟨List.not_mem_nil, ?_⟩
  intro x other holds
  rw [twoCallers_frame, Option.ite_none_right_eq_some] at holds
  exact other (Prod.ext (Fin.ext (Option.some.inj holds.2)) holds.1)

/-- The same fault of process 1 gives its page 1 the frame of process 0. -/
theorem frame_shared : ¬ ∀ s : MemSystem (Fin 2), s.Isolated →
    ∀ as, EachStep step KeepsIsolated s as := by
  intro claim
  have after := (claim twoCallers twoCallers_isolated [(1, 1)] _ rfl).1.1
  have theirs : (twoCallers.getpage (1, 1)).2.frame (0, 0) = some 0 := by decide
  have ours : (twoCallers.getpage (1, 1)).2.frame (1, 1) = some 0 := by decide
  exact absurd (after.single _ _ _ theirs ours) (by decide)

end MemSystem
end OsSim
