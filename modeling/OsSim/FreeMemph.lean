import OsSim.AllocPages

/-! What free_pcb_memph gives back. It takes the pages that are not present for those in RAM,
and those that are present for the swapped ones. -/
namespace OsSim

/-- `PAGING_PTE_SWP`. -/
def pteSwp (pte : BitVec 32) : Nat := (getVal pte pagingPteSwpoffMask 5).toNat

def Memphy.putFreefp (mp : Memphy) (fpn : Nat) : Memphy :=
  { mp with freeFpList := fpn :: mp.freeFpList }

theorem Memphy.putFreefp_all (mp : Memphy) (fpns : List Nat) :
    (fpns.foldl putFreefp mp).freeFpList = fpns.reverse ++ mp.freeFpList := by
  induction fpns generalizing mp with
  | nil => rfl
  | cons fpn fpns ih => simp [ih, putFreefp]

namespace Caller

/-- The loop of free_pcb_memph from page `pagenum` on, with the pages left. -/
def freeLoop (pagenum : Nat) : (left : Nat) → pagenum + left ≤ pagingMaxPgn → Caller → Caller
  | 0, _, c => c
  | left + 1, inside, c =>
      let pte := c.mm.pgd ⟨pagenum, page_inside inside⟩
      if ¬ PtePresent pte then
        freeLoop (pagenum + 1) left (next_inside inside)
          { c with mram := c.mram.putFreefp (pteFpn pte) }
      else
        freeLoop (pagenum + 1) left (next_inside inside)
          { c with activeMswp := c.activeMswp.putFreefp (pteSwp pte) }

def freePcbMemph (c : Caller) : Caller := freeLoop 0 pagingMaxPgn (from_zero le_rfl) c

end Caller

/-! Entries by what they say of their pages. -/
namespace Pte
variable (l : List (BitVec 32))

def absent : List (BitVec 32) := l.filter fun pte => ¬ PtePresent pte
def present : List (BitVec 32) := l.filter fun pte => PtePresent pte
def swapped : List (BitVec 32) := l.filter fun pte => PteSwapped pte
def resident : List (BitVec 32) := l.filter fun pte => PtePresent pte ∧ ¬ PteSwapped pte

/-- Entries that say present, and swapped out. -/
def away : List (BitVec 32) := l.filter fun pte => PtePresent pte ∧ PteSwapped pte

/-- Entries that say swapped out and nothing else. -/
def stray : List (BitVec 32) := l.filter fun pte => ¬ PtePresent pte ∧ PteSwapped pte

variable {l}

theorem absent_cons (pte : BitVec 32) :
    absent (pte :: l) = if PtePresent pte then absent l else pte :: absent l := by
  unfold absent
  split <;> simp [*]

theorem present_cons (pte : BitVec 32) :
    present (pte :: l) = if PtePresent pte then pte :: present l else present l := by
  unfold present
  split <;> simp [*]

theorem present_perm : (present l).Perm (resident l ++ away l) := by
  have parts := (List.filter_append_perm (fun pte => decide (¬ PteSwapped pte)) (present l)).symm
  simpa [present, resident, away, List.filter_filter, Bool.and_comm] using parts

theorem swapped_perm : (swapped l).Perm (stray l ++ away l) := by
  have parts := (List.filter_append_perm (fun pte => decide (¬ PtePresent pte)) (swapped l)).symm
  simpa [swapped, stray, away, List.filter_filter, Bool.and_comm] using parts

theorem stray_eq : stray l = (absent l).filter fun pte => PteSwapped pte := by
  simp [stray, absent, List.filter_filter, Bool.and_comm]

/-- What is taken for swapped has the fields of what is, exactly where what says resident has
the fields of the stray entries. -/
theorem present_swp_iff : ((present l).map pteSwp).Perm ((swapped l).map pteSwp) ↔
    ((resident l).map pteSwp).Perm ((stray l).map pteSwp) := by
  rw [(present_perm.map pteSwp).congr_left, (swapped_perm.map pteSwp).congr_right,
    List.map_append, List.map_append, List.perm_append_right_iff]

/-- There are as many absent entries as resident ones, and as many of them as that are stray:
so all of them are. -/
theorem fields_iff :
    ((absent l).map pteFpn).Perm ((resident l).map pteFpn) ∧
      ((present l).map pteSwp).Perm ((swapped l).map pteSwp) ↔
    (∀ pte ∈ l, PtePresent pte ∨ PteSwapped pte) ∧
      ((absent l).map pteFpn).Perm ((resident l).map pteFpn) ∧
      ((absent l).map pteSwp).Perm ((resident l).map pteSwp) := by
  have all_stray : stray l = absent l ↔ ∀ pte ∈ l, PtePresent pte ∨ PteSwapped pte := by
    rw [stray_eq, List.filter_eq_self]
    simp [absent, or_iff_not_imp_left]
  rw [present_swp_iff, ← all_stray]
  constructor
  · rintro ⟨frames, swaps⟩
    have as_many := frames.length_eq
    have strays := swaps.length_eq
    simp only [List.length_map] at as_many strays
    have all : stray l = absent l := by
      rw [stray_eq] at strays ⊢
      exact List.filter_sublist.eq_of_length (strays.symm.trans as_many.symm)
    exact ⟨all, frames, all ▸ swaps.symm⟩
  · rintro ⟨all, frames, swaps⟩
    rw [all]
    exact ⟨frames, swaps.symm⟩

end Pte

namespace Mm

def entries (mm : Mm) : List (BitVec 32) := (pages 0 pagingMaxPgn (from_zero le_rfl)).map mm.pgd

theorem mem_entries (mm : Mm) {pte : BitVec 32} : pte ∈ mm.entries ↔ ∃ p, mm.pgd p = pte := by
  simp [entries, mem_pages]

theorem forall_entries (mm : Mm) {P : BitVec 32 → Prop} :
    (∀ pte ∈ mm.entries, P pte) ↔ ∀ p, P (mm.pgd p) := by
  simp [mem_entries]

end Mm

namespace Caller

theorem freeLoop_eq {left pagenum : Nat} {inside : pagenum + left ≤ pagingMaxPgn} (c : Caller)
    {l : List (BitVec 32)} (entries : l = (pages pagenum left inside).map c.mm.pgd) :
    freeLoop pagenum left inside c = { c with
      mram := ((Pte.absent l).map pteFpn).foldl Memphy.putFreefp c.mram
      activeMswp := ((Pte.present l).map pteSwp).foldl Memphy.putFreefp c.activeMswp } := by
  subst entries
  induction left generalizing pagenum c with
  | zero => rfl
  | succ left ih =>
      unfold freeLoop
      dsimp only
      rw [pages, List.map_cons, Pte.absent_cons, Pte.present_cons]
      by_cases there : PtePresent (c.mm.pgd ⟨pagenum, page_inside inside⟩)
      · rw [if_neg (not_not.mpr there), if_pos there, if_pos there]
        exact ih _
      · rw [if_pos there, if_neg there, if_neg there]
        exact ih _

/-- The frames of the resident pages come back to RAM and the swap frames of the swapped
pages to the swap device, each as often as it is held, and nothing else does. -/
structure FreedExactly (c : Caller) : Prop where
  frames : c.freePcbMemph.mram.freeFpList.Perm
    ((Pte.resident c.mm.entries).map pteFpn ++ c.mram.freeFpList)
  swaps : c.freePcbMemph.activeMswp.freeFpList.Perm
    ((Pte.swapped c.mm.entries).map pteSwp ++ c.activeMswp.freeFpList)

theorem freedExactly_fields (c : Caller) : c.FreedExactly ↔
    ((Pte.absent c.mm.entries).map pteFpn).Perm ((Pte.resident c.mm.entries).map pteFpn) ∧
      ((Pte.present c.mm.entries).map pteSwp).Perm ((Pte.swapped c.mm.entries).map pteSwp) := by
  have parts : c.FreedExactly ↔ _ ∧ _ := ⟨fun h => ⟨h.frames, h.swaps⟩, fun h => ⟨h.1, h.2⟩⟩
  rw [parts, freePcbMemph, freeLoop_eq c (l := c.mm.entries) rfl]
  dsimp only
  rw [Memphy.putFreefp_all, Memphy.putFreefp_all, List.perm_append_right_iff,
    List.perm_append_right_iff, (List.reverse_perm _).congr_left, (List.reverse_perm _).congr_left]

/-- The call gives back what is held exactly where every page is resident or marked swapped,
and those that are only marked swapped have among them the fields of the resident ones. -/
theorem freedExactly_iff (c : Caller) : c.FreedExactly ↔
    (∀ p, PtePresent (c.mm.pgd p) ∨ PteSwapped (c.mm.pgd p)) ∧
      ((Pte.absent c.mm.entries).map pteFpn).Perm ((Pte.resident c.mm.entries).map pteFpn) ∧
      ((Pte.absent c.mm.entries).map pteSwp).Perm ((Pte.resident c.mm.entries).map pteSwp) := by
  rw [freedExactly_fields, Pte.fields_iff, c.mm.forall_entries]

/-- pte_set_swap marks a page present as well: the tables it makes have to be swapped out
from the first page to the last. -/
theorem freedExactly_iff_away {c : Caller}
    (marked : ∀ p, PteSwapped (c.mm.pgd p) → PtePresent (c.mm.pgd p)) :
    c.FreedExactly ↔ ∀ p, PtePresent (c.mm.pgd p) ∧ PteSwapped (c.mm.pgd p) := by
  rw [freedExactly_fields, Pte.fields_iff, c.mm.forall_entries]
  constructor
  · rintro ⟨some_mark, frames, -⟩ p
    have here : ∀ p, PtePresent (c.mm.pgd p) := fun p => (some_mark p).elim id (marked p)
    have none_absent : Pte.absent c.mm.entries = [] := by
      simpa [Pte.absent, List.filter_eq_nil_iff] using (c.mm.forall_entries).mpr here
    rw [none_absent, List.map_nil, List.nil_perm, List.map_eq_nil_iff] at frames
    have none_resident : ∀ pte ∈ c.mm.entries, PtePresent pte → PteSwapped pte := by
      simpa [Pte.resident, List.filter_eq_nil_iff] using frames
    exact ⟨here p, (c.mm.forall_entries).mp none_resident p (here p)⟩
  · intro away
    have none_absent : Pte.absent c.mm.entries = [] := by
      simpa [Pte.absent, List.filter_eq_nil_iff] using
        (c.mm.forall_entries).mpr fun p => (away p).1
    have none_resident : Pte.resident c.mm.entries = [] := by
      simpa [Pte.resident, List.filter_eq_nil_iff] using
        (c.mm.forall_entries).mpr fun p => fun _ => (away p).2
    rw [none_absent, none_resident]
    exact ⟨fun p => .inl (away p).1, .rfl, .rfl⟩

/-- What the process holds it holds once, and nobody has it free. -/
structure HeldApart (c : Caller) : Prop where
  frames_nodup : ((Pte.resident c.mm.entries).map pteFpn).Nodup
  swaps_nodup : ((Pte.swapped c.mm.entries).map pteSwp).Nodup
  frames_used : ∀ fpn ∈ (Pte.resident c.mm.entries).map pteFpn, fpn ∉ c.mram.freeFpList
  swaps_used : ∀ fpn ∈ (Pte.swapped c.mm.entries).map pteSwp, fpn ∉ c.activeMswp.freeFpList

/-- A page table with nothing in it gives back frame 0, once for each of its pages. -/
theorem frame_zero_freed : ¬ ∀ c : Caller, c.HeldApart → c.FreedExactly := by
  intro claim
  let c : Caller := ⟨Mm.init, ⟨fun _ => 0, 512, true, [0, 1]⟩, ⟨fun _ => 0, 512, true, [0, 1]⟩⟩
  have zero : ∀ pte ∈ c.mm.entries, pte = 0 := (c.mm.forall_entries).mpr fun _ => rfl
  have none_resident : Pte.resident c.mm.entries = [] := by
    refine List.filter_eq_nil_iff.mpr fun pte member => ?_
    rw [zero pte member]
    decide
  have none_swapped : Pte.swapped c.mm.entries = [] := by
    refine List.filter_eq_nil_iff.mpr fun pte member => ?_
    rw [zero pte member]
    decide
  have apart : c.HeldApart := by
    constructor
    all_goals simp [none_resident, none_swapped]
  obtain ⟨frames, -⟩ := (c.freedExactly_fields).mp (claim c apart)
  have gone : (0 : BitVec 32) ∈ Pte.absent c.mm.entries :=
    List.mem_filter.mpr ⟨c.mm.mem_entries.mpr ⟨0, rfl⟩, by decide⟩
  rw [none_resident] at frames
  cases frames.mem_iff.mp (List.mem_map_of_mem gone)

end Caller
end OsSim
