import OsSim.Transition
import OsSim.VmMap

/-! The FIFO list against the page table. What joins the list has just been given a frame,
what leaves it is swapped out, or is lost to the list when the swap device is full. -/
namespace OsSim
open Transition

/-- The calls that change page table and list; between them, other processes may make
anything of the devices. -/
inductive MapOp where
  | alloc (reqPgnum : Fin (pagingMaxPgn + 1)) (frmLst : List Nat)
  | vmap (addr : BitVec 32) (pgnum : Nat)
      (inside : (pagingPgn addr).val + pgnum ≤ pagingMaxPgn) (frames : List Nat)
  | getpage (pgn : Pgn)
  | others (mram activeMswp : Memphy)

namespace Mm

def Resident (mm : Mm) (p : Pgn) : Prop := PtePresent (mm.pgd p) ∧ ¬ PteSwapped (mm.pgd p)

instance (mm : Mm) : DecidablePred mm.Resident := fun _ => inferInstanceAs (Decidable (_ ∧ _))

/-- The list has no page twice, and resident pages only. -/
structure Listed (mm : Mm) : Prop where
  nodup : mm.fifoPgn.Nodup
  resident : ∀ p ∈ mm.fifoPgn, mm.Resident p

def Complete (mm : Mm) : Prop := ∀ p, mm.Resident p → p ∈ mm.fifoPgn

theorem resident_iff (mm : Mm) (p : Pgn) : mm.Resident p ↔ (mm.frame p).isSome := by
  unfold Resident frame pteFrame
  split <;> simp [*]

theorem Listed.init : Listed init := ⟨List.nodup_nil, fun _ member => nomatch member⟩

theorem Complete.init : Complete init := by
  intro p resident
  rw [resident_iff, init_frame] at resident
  cases resident

theorem mapPage_resident (mm : Mm) (pgn : Pgn) (fpn : Nat) (p : Pgn) :
    (mm.mapPage pgn fpn).Resident p ↔ p = pgn ∨ mm.Resident p := by
  rw [resident_iff, resident_iff, mapPage_frame, Function.update_apply]
  split <;> simp [*]

theorem Listed.mapPage {mm : Mm} (listed : mm.Listed) {pgn : Pgn}
    (absent : ¬ PtePresent (mm.pgd pgn)) (fpn : Nat) : (mm.mapPage pgn fpn).Listed := by
  constructor
  · refine List.nodup_cons.mpr ⟨?_, listed.nodup⟩
    intro member
    exact absent (listed.resident pgn member).1
  · intro p member
    rw [mapPage_resident]
    exact (List.mem_cons.mp member).imp_right (listed.resident p)

theorem Complete.mapPage {mm : Mm} (complete : mm.Complete) (pgn : Pgn) (fpn : Nat) :
    (mm.mapPage pgn fpn).Complete := by
  intro p resident
  rw [mapPage_resident] at resident
  exact List.mem_cons.mpr (resident.imp_right (complete p))

theorem Listed.mapPages {mm : Mm} (listed : mm.Listed) {ps : List Pgn} (nodup : ps.Nodup)
    (fs : List Nat) : (mm.mapPages (mm.unmapped ps) fs).Listed :=
  mapPages_invariant (P := fun mm _ => mm.Listed)
    (fun _ _ fpn _ absent listed => listed.mapPage absent fpn)
    (fun _ member => (mem_unmapped.mp member).2) (unmapped_nodup nodup) listed

theorem Complete.mapPages {mm : Mm} (complete : mm.Complete) {ps : List Pgn} (nodup : ps.Nodup)
    (fs : List Nat) : (mm.mapPages (mm.unmapped ps) fs).Complete :=
  mapPages_invariant (P := fun mm _ => mm.Complete)
    (fun _ pgn fpn _ _ complete => complete.mapPage pgn fpn)
    (fun _ member => (mem_unmapped.mp member).2) (unmapped_nodup nodup) complete

end Mm

namespace Caller

def mapStep (c : Caller) : MapOp → Option Caller
  | .alloc reqPgnum frmLst =>
      some (c.allocPagesRange reqPgnum (reqPgnum_inside reqPgnum) frmLst).2.2
  | .vmap addr pgnum inside frames =>
      some { c with mm := (c.mm.vmapPageRange addr pgnum inside frames).2 }
  | .getpage pgn => some (c.pgGetpage pgn).2
  | .others mram activeMswp => some { c with mram, activeMswp }

/-- The call is a pg_getpage that finds a victim and no free swap frame for it. -/
def LacksSwap (c : Caller) : MapOp → Prop
  | .getpage pgn =>
      ¬ PtePresent (c.mm.pgd pgn) ∧ c.mm.fifoPgn ≠ [] ∧ c.activeMswp.freeFpList = []
  | .alloc .. | .vmap .. | .others .. => False

theorem getpage_listed {c : Caller} (listed : c.mm.Listed) {pgn : Pgn} {r : Option Nat}
    {c' : Caller} (got : GetPage c pgn r c') : c'.mm.Listed := by
  cases got with
  | hit _ => exact listed
  | noVictim _ _ => exact listed
  | @noSwap vicpgn rest _ fifo _ =>
      have parts := List.nodup_append.mp (fifo ▸ listed.nodup)
      refine ⟨parts.1, ?_⟩
      intro p member
      exact listed.resident p (fifo ▸ List.mem_append_left _ member)
  | @fault vicpgn rest c' absent fifo _ _ fifo' frame' _ =>
      have parts := List.nodup_append.mp (fifo ▸ listed.nodup)
      have before : ∀ p ∈ rest, c.mm.Resident p := fun p member =>
        listed.resident p (fifo ▸ List.mem_append_left _ member)
      constructor
      · rw [fifo']
        refine List.nodup_cons.mpr ⟨?_, parts.1⟩
        intro member
        exact absent (before pgn member).1
      · intro p member
        rw [Mm.resident_iff, frame', Function.update_apply]
        split
        · rfl
        · rename_i other
          rw [fifo'] at member
          have waiting := (List.mem_cons.mp member).resolve_left other
          rw [Function.update_of_ne, ← Mm.resident_iff]
          · exact before p waiting
          · intro victim
            exact parts.2.2 p waiting vicpgn List.mem_cons_self victim

theorem getpage_complete {c : Caller} (complete : c.mm.Complete) {pgn : Pgn}
    (swaps : ¬ c.LacksSwap (.getpage pgn)) {r : Option Nat} {c' : Caller}
    (got : GetPage c pgn r c') : c'.mm.Complete := by
  cases got with
  | hit _ => exact complete
  | noVictim _ _ => exact complete
  | noSwap absent fifo full =>
      refine absurd ⟨absent, ?_, full⟩ swaps
      rw [fifo]
      exact List.append_ne_nil_of_right_ne_nil _ (List.cons_ne_nil _ _)
  | @fault vicpgn rest c' absent fifo _ _ fifo' frame' _ =>
      intro p resident
      rw [Mm.resident_iff, frame', Function.update_apply] at resident
      rw [fifo', List.mem_cons]
      split at resident
      · exact .inl ‹_›
      · rw [Function.update_apply] at resident
        split at resident
        · cases resident
        · rename_i kept
          have member := complete p ((Mm.resident_iff _ _).mpr resident)
          rw [fifo, List.mem_append, List.mem_singleton] at member
          exact .inr (member.resolve_right kept)

/-- The step lemma. -/
theorem mapStep_keeps {c c' : Caller} (listed : c.mm.Listed) {op : MapOp}
    (h : c.mapStep op = some c') :
    c'.mm.Listed ∧ (¬ c.LacksSwap op → c.mm.Complete → c'.mm.Complete) := by
  cases op with
  | alloc reqPgnum frmLst =>
      obtain rfl := Option.some.inj h
      rw [allocPagesRange_eq]
      exact ⟨listed.mapPages pages_nodup _, fun _ complete => complete.mapPages pages_nodup _⟩
  | vmap addr pgnum inside frames =>
      obtain rfl := Option.some.inj h
      dsimp only [Mm.vmapPageRange]
      rw [Mm.vmapLoop_eq]
      exact ⟨listed.mapPages pages_nodup _, fun _ complete => complete.mapPages pages_nodup _⟩
  | getpage pgn =>
      obtain rfl := Option.some.inj h
      exact ⟨getpage_listed listed (c.pgGetpage_spec pgn),
        fun swaps complete => getpage_complete complete swaps (c.pgGetpage_spec pgn)⟩
  | others mram activeMswp =>
      obtain rfl := Option.some.inj h
      exact ⟨listed, fun _ complete => complete⟩

/-- The run lemma. -/
theorem mapRun_keeps {c c' : Caller} (listed : c.mm.Listed) {ops : List MapOp}
    (h : run mapStep c ops = some c') :
    c'.mm.Listed ∧ (EachStep mapStep (fun c op => ¬ c.LacksSwap op) c ops →
      c.mm.Complete → c'.mm.Complete) := by
  induction ops generalizing c with
  | nil => exact Option.some.inj h ▸ ⟨listed, fun _ complete => complete⟩
  | cons op ops ih =>
      obtain ⟨c₁, first, rest⟩ := Option.bind_eq_some_iff.mp h
      obtain ⟨listed₁, complete₁⟩ := mapStep_keeps listed first
      obtain ⟨final, complete⟩ := ih listed₁ rest
      refine ⟨final, ?_⟩
      intro each start
      obtain ⟨swaps, later⟩ := each c₁ first
      exact complete later (complete₁ swaps start)

/-- In every state that calls reach from an empty page table, the list has no page twice and
resident pages only; it has them all as long as no pg_getpage failed for a swap frame. -/
theorem fifo_mirrors {mram activeMswp : Memphy} {ops : List MapOp} {c : Caller}
    (h : run mapStep ⟨Mm.init, mram, activeMswp⟩ ops = some c) :
    c.mm.fifoPgn.Nodup ∧ (∀ p ∈ c.mm.fifoPgn, c.mm.Resident p) ∧
      (EachStep mapStep (fun c op => ¬ c.LacksSwap op) ⟨Mm.init, mram, activeMswp⟩ ops →
        ∀ p, p ∈ c.mm.fifoPgn ↔ c.mm.Resident p) := by
  obtain ⟨listed, complete⟩ := mapRun_keeps .init h
  refine ⟨listed.nodup, listed.resident, ?_⟩
  intro each p
  exact ⟨listed.resident p, complete each .init p⟩

def oneSwapFrame : Caller where
  mm := Mm.init
  mram := ⟨fun _ => 0, 512, true, [0, 1]⟩
  activeMswp := ⟨fun _ => 0, 256, true, [0]⟩

/-- Page 5 comes in for page 0, and page 9 is not served: page 1 is lost to the list. -/
theorem fifo_mirrors_evicting : ∃ c,
    run mapStep oneSwapFrame [.alloc 2 [], .getpage 5, .getpage 9] = some c ∧
      c.mm.fifoPgn = [5] ∧ c.mm.Resident 1 ∧
      c.mm.fifoPgn.Nodup ∧ ∀ p ∈ c.mm.fifoPgn, c.mm.Resident p := by
  have h : run mapStep oneSwapFrame [.alloc 2 [], .getpage 5, .getpage 9] = some _ := rfl
  have mirrors := fifo_mirrors h
  exact ⟨_, h, by decide +kernel, by decide +kernel, mirrors.1, mirrors.2.1⟩

/-- A pg_getpage that returns -1 leaves page table, list and devices as they were. -/
def LeavesNoTrace (c : Caller) (pgn : Pgn) : Prop :=
  (c.pgGetpage pgn).1 = none → (c.pgGetpage pgn).2 = c

/-- The victim is taken off the list before the swap device is asked for a frame, and is not
put back. -/
theorem leavesNoTrace_iff (c : Caller) (pgn : Pgn) : c.LeavesNoTrace pgn ↔
    PtePresent (c.mm.pgd pgn) ∨ c.mm.fifoPgn = [] ∨ c.activeMswp.freeFpList ≠ [] := by
  have spec := c.pgGetpage_spec pgn
  unfold LeavesNoTrace
  generalize c.pgGetpage pgn = r at spec ⊢
  rcases r with ⟨fpn, c'⟩
  dsimp only at spec ⊢
  cases spec with
  | hit present => exact iff_of_true (fun _ => rfl) (.inl present)
  | noVictim _ empty => exact iff_of_true (fun _ => rfl) (.inr (.inl empty))
  | @noSwap vicpgn rest absent fifo full =>
      refine iff_of_false ?_ ?_
      · intro kept
        have same : rest = c.mm.fifoPgn := congrArg (fun c => c.mm.fifoPgn) (kept rfl)
        rw [fifo] at same
        simpa using congrArg List.length same
      · rintro (present | empty | room)
        · exact absent present
        · simp [fifo] at empty
        · exact room full
  | fault _ _ room => exact iff_of_true (by simp) (.inr (.inr room))

/-- A fault on page 9 with a page to evict and nowhere to put it. -/
theorem victim_lost : ¬ ∀ (c : Caller) (pgn : Pgn), c.LeavesNoTrace pgn := by
  intro claim
  let c : Caller := ⟨(Mm.init.setPte 0 (pteSetFpn 0 1)).enlistPgnNode 0, oneSwapFrame.mram,
    ⟨fun _ => 0, 0, true, []⟩⟩
  have kept := congrArg (fun c => c.mm.fifoPgn) (claim c 9 (by decide))
  exact absurd kept (by decide)

end Caller
end OsSim
