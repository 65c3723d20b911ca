import Mathlib.Data.List.Perm.Basic
import OsSim.AllocPages
import OsSim.FrameIsolation

/-! Processes that take the frames of one RAM device by alloc_pages_range: a frame goes
from the free list to one page, and nowhere else. -/
namespace OsSim
open Transition Possession

/-- alloc_pages_range for one of the processes, with what `*frm_lst` holds before. -/
structure AllocCall (ι : Type*) where
  caller : ι
  reqPgnum : Fin (pagingMaxPgn + 1)
  frmLst : List Nat

/-- The frames below `n` are dealt out: each is free, or one page's. -/
structure Dealt {ι : Type*} (n : Nat) (mm : ι → Mm) (free : List Nat) : Prop where
  resident : ∀ i p, PtePresent ((mm i).pgd p) → ¬ PteSwapped ((mm i).pgd p)
  free_nodup : free.Nodup
  exclusive : Exclusive (fun x : ι × Pgn => (mm x.1).frame x.2) free
  all : ∀ f, f < n ↔ f ∈ free ∨ ∃ x : ι × Pgn, (mm x.1).frame x.2 = some f

section Dealing
variable {ι : Type*} {n : Nat} {mm : ι → Mm} {free : List Nat}

theorem Dealt.fresh (once : free.Perm (List.range n)) (zero : ∀ i p, (mm i).pgd p = 0) :
    Dealt n mm free where
  resident i p present := absurd present (by rw [zero]; decide)
  free_nodup := once.nodup_iff.mpr List.nodup_range
  exclusive := by
    have nobody : (fun x : ι × Pgn => (mm x.1).frame x.2) = fun _ => none := by
      funext x
      exact pteFrame_absent (by rw [zero]; decide)
    rw [nobody]
    exact .none _
  all f := by
    have nobody : ¬ ∃ x : ι × Pgn, (mm x.1).frame x.2 = some f := by
      rintro ⟨x, holds⟩
      have present := (pteFrame_some holds).1
      rw [zero] at present
      exact absurd present (by decide)
    rw [once.mem_iff, List.mem_range, or_iff_left nobody]

variable [DecidableEq ι]

/-- One page of one process is given the first free frame. -/
theorem Dealt.mapPage {i : ι} {m : Mm} {pgn : Pgn} {fpn : Nat} {rest : List Nat}
    (dealt : Dealt n (Function.update mm i m) (fpn :: rest)) (small : n ≤ 2 ^ 13)
    (absent : ¬ PtePresent (m.pgd pgn)) :
    Dealt n (Function.update mm i (m.mapPage pgn fpn)) rest := by
  have once := List.nodup_cons.mp dealt.free_nodup
  have below : fpn < n := (dealt.all fpn).mpr (.inl List.mem_cons_self)
  have fits : fpn % 2 ^ 13 = fpn := Nat.mod_eq_of_lt (below.trans_le small)
  have empty : (Function.update mm i m (i, pgn).1).frame (i, pgn).2 = none := by
    rw [Function.update_self]
    exact pteFrame_absent absent
  have frame : (fun x : ι × Pgn => (Function.update mm i (m.mapPage pgn fpn) x.1).frame x.2) =
      Function.update (fun x : ι × Pgn => (Function.update mm i m x.1).frame x.2) (i, pgn)
        (some fpn) := by
    funext ⟨j, p⟩
    by_cases own : j = i
    · subst own
      simp only [Function.update_self, Mm.mapPage_frame, fits, Function.update_apply,
        Prod.mk.injEq, true_and, if_true]
    · simp [own, Function.update_apply]
  refine ⟨?_, once.2, ?_, ?_⟩
  · intro j p present
    have before := dealt.resident j p
    by_cases own : j = i
    · subst own
      simp only [Function.update_self] at present before ⊢
      rw [Mm.mapPage_pgd] at present ⊢
      split at present
      · rw [if_pos ‹_›]
        exact pteSetFpn_not_swapped _ _
      · rw [if_neg ‹_›]
        exact before present
    · rw [Function.update_of_ne own] at present before ⊢
      exact before present
  · rw [frame]
    exact dealt.exclusive.take once.1 empty
  · intro f
    have same : ∀ x : ι × Pgn, (Function.update mm i (m.mapPage pgn fpn) x.1).frame x.2 =
        if x = (i, pgn) then some fpn else (Function.update mm i m x.1).frame x.2 := by
      intro x
      exact (congrFun frame x).trans (Function.update_apply _ _ _ _)
    rw [dealt.all f, List.mem_cons]
    constructor
    · rintro ((rfl | member) | ⟨x, holds⟩)
      · exact .inr ⟨(i, pgn), by rw [same, if_pos rfl]⟩
      · exact .inl member
      · refine .inr ⟨x, ?_⟩
        rw [same, if_neg]
        · exact holds
        · rintro rfl
          rw [empty] at holds
          cases holds
    · rintro (member | ⟨x, holds⟩)
      · exact .inl (.inr member)
      · rw [same] at holds
        split at holds
        · exact .inl (.inl (Option.some.inj holds).symm)
        · exact .inr ⟨x, holds⟩

end Dealing

namespace MemSystem
variable {ι : Type*} [DecidableEq ι]

def allocPages (s : MemSystem ι) (a : AllocCall ι) : Bool × List Nat × MemSystem ι :=
  let r := (s.caller a.caller).allocPagesRange a.reqPgnum (reqPgnum_inside a.reqPgnum)
    a.frmLst
  (r.1, r.2.1, s.putBack a.caller r.2.2)

def allocStep (s : MemSystem ι) (a : AllocCall ι) : Option (MemSystem ι) :=
  some (s.allocPages a).2.2

/-- A present page of a process has `fpn` for its FPN. -/
def Maps (s : MemSystem ι) (x : ι × Pgn) (fpn : Nat) : Prop :=
  PtePresent ((s.mm x.1).pgd x.2) ∧ pteFpn ((s.mm x.1).pgd x.2) = fpn

/-- Each frame below `n` is either once on the free list or the FPN of one present page. -/
def Partitioned (n : Nat) (s : MemSystem ι) : Prop :=
  ∀ fpn < n, (s.mram.freeFpList.count fpn = 1 ∧ ∀ x, ¬ s.Maps x fpn) ∨
    (fpn ∉ s.mram.freeFpList ∧ ∃! x, s.Maps x fpn)

/-- The pages among the first `reqPgnum` of the process that are not mapped. -/
def unmappedPages (s : MemSystem ι) (a : AllocCall ι) : List Pgn :=
  (s.caller a.caller).requested a.reqPgnum (reqPgnum_inside a.reqPgnum)

/-- What a call has to do: it succeeds when there are frames enough, the frames it puts
before `*frm_lst` are those that left the free list for pages that were not mapped, mapped
pages stay as they are, and it fails with no frame left. -/
structure AllocContract (s : MemSystem ι) (a : AllocCall ι) : Prop where
  returns_zero : (s.allocPages a).1 = true ↔ (s.unmappedPages a).length ≤ s.mram.freeFpList.length
  prepends : ∃ taken, (s.allocPages a).2.1 = taken ++ a.frmLst ∧
    s.mram.freeFpList = taken.reverse ++ (s.allocPages a).2.2.mram.freeFpList ∧
    ∀ fpn, fpn ∈ taken ↔ ∃ p ∈ s.unmappedPages a, (s.allocPages a).2.2.Maps (a.caller, p) fpn
  untouched : ∀ i p, PtePresent ((s.mm i).pgd p) →
    ((s.allocPages a).2.2.mm i).pgd p = (s.mm i).pgd p
  exhausted : (s.allocPages a).1 = false → (s.allocPages a).2.2.mram.freeFpList = []

omit [DecidableEq ι] in
theorem maps_iff {n : Nat} {s : MemSystem ι} (dealt : Dealt n s.mm s.mram.freeFpList)
    (x : ι × Pgn) (fpn : Nat) : s.Maps x fpn ↔ (s.mm x.1).frame x.2 = some fpn := by
  constructor
  · rintro ⟨present, rfl⟩
    exact if_pos ⟨present, dealt.resident _ _ present⟩
  · intro holds
    exact ⟨(pteFrame_some holds).1, (pteFrame_some holds).2.2⟩

omit [DecidableEq ι] in
theorem partitioned_of_dealt {n : Nat} {s : MemSystem ι}
    (dealt : Dealt n s.mm s.mram.freeFpList) : s.Partitioned n := by
  intro fpn below
  simp only [maps_iff dealt]
  rcases (dealt.all fpn).mp below with free | ⟨x, holds⟩
  · refine .inl ⟨List.count_eq_one_of_mem dealt.free_nodup free, ?_⟩
    intro x holds
    exact dealt.exclusive.in_use x fpn holds free
  · refine .inr ⟨dealt.exclusive.in_use x fpn holds, x, holds, ?_⟩
    intro y also
    exact dealt.exclusive.single y x fpn also holds

theorem allocPages_eq (s : MemSystem ι) (a : AllocCall ι) :
    (s.allocPages a).1 = decide ((s.unmappedPages a).length ≤ s.mram.freeFpList.length) ∧
      (s.allocPages a).2.1 =
        (s.mram.freeFpList.take (s.unmappedPages a).length).reverse ++ a.frmLst ∧
      (s.allocPages a).2.2.mm = Function.update s.mm a.caller
        ((s.mm a.caller).mapPages (s.unmappedPages a) s.mram.freeFpList) ∧
      (s.allocPages a).2.2.mram.freeFpList =
        s.mram.freeFpList.drop (s.unmappedPages a).length := by
  unfold allocPages
  rw [Caller.allocPagesRange_eq]
  exact ⟨rfl, rfl, rfl, rfl⟩

/-- The step lemma. -/
theorem allocPages_dealt {n : Nat} {s : MemSystem ι} (dealt : Dealt n s.mm s.mram.freeFpList)
    (small : n ≤ 2 ^ 13) (a : AllocCall ι) :
    Dealt n (s.allocPages a).2.2.mm (s.allocPages a).2.2.mram.freeFpList := by
  obtain ⟨-, -, mm, free⟩ := s.allocPages_eq a
  rw [mm, free]
  apply Mm.mapPages_invariant (P := fun m free => Dealt n (Function.update s.mm a.caller m) free)
  · intro m pgn fpn free absent dealt
    exact dealt.mapPage small absent
  · intro p member
    exact (Caller.mem_requested.mp member).2
  · exact Caller.requested_nodup
  · rw [Function.update_eq_self]
    exact dealt

/-- The frames taken off the list are those of the pages that were not mapped. -/
theorem mem_taken {n : Nat} {s : MemSystem ι} (dealt : Dealt n s.mm s.mram.freeFpList)
    (small : n ≤ 2 ^ 13) (a : AllocCall ι) (fpn : Nat) :
    fpn ∈ s.mram.freeFpList.take (s.unmappedPages a).length ↔
      ∃ p ∈ s.unmappedPages a, (s.allocPages a).2.2.Maps (a.caller, p) fpn := by
  have fits : (s.mram.freeFpList.take (s.unmappedPages a).length).map (· % 2 ^ 13) =
      s.mram.freeFpList.take (s.unmappedPages a).length := by
    refine (List.map_congr_left ?_).trans (List.map_id _)
    intro f member
    have below := (dealt.all f).mpr (.inl (List.mem_of_mem_take member))
    exact Nat.mod_eq_of_lt (below.trans_le small)
  have nodup : (s.unmappedPages a).Nodup := Caller.requested_nodup
  have used := (s.mm a.caller).mapPages_holds s.mram.freeFpList nodup fpn
  rw [← fits]
  refine used.symm.trans (exists_congr fun p => ?_)
  rw [maps_iff (allocPages_dealt dealt small a), (s.allocPages_eq a).2.2.1, Function.update_self]
  refine and_congr_left fun holds => ⟨List.mem_of_mem_take, ?_⟩
  intro member
  have present := (pteFrame_some holds).1
  rcases (Mm.mapPages_present p).mp present with before | taken
  · exact absurd before (Caller.mem_requested.mp member).2
  · exact taken

theorem allocContract_of_dealt {n : Nat} {s : MemSystem ι}
    (dealt : Dealt n s.mm s.mram.freeFpList) (small : n ≤ 2 ^ 13) (a : AllocCall ι) :
    s.AllocContract a := by
  obtain ⟨returns, prepends, mm, free⟩ := s.allocPages_eq a
  constructor
  · rw [returns, decide_eq_true_iff]
  · refine ⟨_, prepends, ?_, ?_⟩
    · rw [List.reverse_reverse, free, List.take_append_drop]
    · intro fpn
      rw [List.mem_reverse]
      exact mem_taken dealt small a fpn
  · intro i p present
    rw [mm, Function.update_apply]
    split
    · rename_i own
      subst own
      apply Mm.mapPages_pgd_other
      intro member
      exact (Caller.mem_requested.mp member).2 present
    · rfl
  · intro failed
    rw [returns, decide_eq_false_iff_not, not_le] at failed
    rw [free]
    exact List.drop_eq_nil_of_le failed.le

/-- Over every sequence of calls of any of the processes, from unmapped page tables and a
list of at most 8192 free frames: in every state the frames are partitioned, and every call
does what it has to. -/
theorem frames_partitioned {n : Nat} (small : n ≤ 8192) {s : MemSystem ι}
    (once : s.mram.freeFpList.Perm (List.range n)) (zero : ∀ i p, (s.mm i).pgd p = 0)
    (as : List (AllocCall ι)) :
    Always allocStep (Partitioned n) s as ∧ EachStep allocStep AllocContract s as := by
  have start : Dealt n s.mm s.mram.freeFpList := .fresh once zero
  clear once zero
  induction as generalizing s with
  | nil => exact ⟨partitioned_of_dealt start, trivial⟩
  | cons a as ih =>
      have next := allocPages_dealt start small a
      refine ⟨⟨partitioned_of_dealt start, ?_⟩, ?_⟩
      · intro t moved
        exact Option.some.inj moved ▸ (ih next).1
      · intro t moved
        exact ⟨allocContract_of_dealt start small a, Option.some.inj moved ▸ (ih next).2⟩

/-- Two processes and a RAM of three frames. -/
def threeFrames : MemSystem (Fin 2) where
  mram := (⟨fun _ => 0, 768, true, []⟩ : Memphy).format
  mswp := fun _ => ⟨fun _ => 0, 768, true, []⟩
  mm := fun _ => Mm.init
  activeMswp := fun _ => 0

/-- The second call finds one frame for two pages and fails. -/
theorem frames_partitioned_three :
    Always allocStep (Partitioned 3) threeFrames [⟨0, 2, []⟩, ⟨1, 2, [7]⟩] ∧
      EachStep allocStep AllocContract threeFrames [⟨0, 2, []⟩, ⟨1, 2, [7]⟩] :=
  frames_partitioned (by decide) (.refl _) (fun _ _ => rfl) _

end MemSystem
end OsSim
