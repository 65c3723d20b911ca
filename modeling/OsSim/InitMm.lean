import Mathlib.Logic.Function.Basic
import OsSim.AllocContract
import OsSim.Linked

/-! init_mm over the heap it finds. Its blocks hold whatever they held before malloc gave them
out, so a field that init_mm does not write keeps that. -/
namespace OsSim
open Linked

/-- An address; 0 is NULL. -/
abbrev Ptr := Nat

/-- `struct vm_rg_struct` with its link. -/
structure RgNode where
  vmaid : Int
  rgStart : BitVec 64
  rgEnd : BitVec 64
  rgNext : Ptr

/-- The region that a node holds. -/
def RgNode.value (node : RgNode) : VmRg := ⟨node.vmaid, node.rgStart, node.rgEnd⟩

structure VmaNode where
  vmId : BitVec 64
  vmStart : BitVec 64
  vmEnd : BitVec 64
  sbrk : BitVec 64
  vmMm : Ptr
  vmFreergList : Ptr
  vmNext : Ptr

/-- `struct mm_struct` as it is in memory. -/
structure MmNode where
  pgd : Ptr
  mmap : Ptr
  symrgtbl : Vector RgNode pagingMaxSymtblSz
  fifoPgn : Ptr

/-- The contents of the memory, a map for each type of object; `callerMm` is the `mm` of the
process. -/
structure Heap where
  rg : Ptr → RgNode
  vma : Ptr → VmaNode
  mm : Ptr → MmNode
  pgd : Ptr → Nat → BitVec 32
  callerMm : Ptr

/-- What the calls of malloc in init_mm return, in their order: NULL, or blocks of their own. -/
structure Blocks where
  vma0 : Ptr
  vma1 : Ptr
  pgd : Ptr
  firstRg : Ptr
  heapRg : Ptr
  vmas_apart : vma0 ≠ 0 → vma1 ≠ vma0
  rgs_apart : firstRg ≠ 0 → heapRg ≠ firstRg

namespace Heap

def setRg (h : Heap) (p : Ptr) (rg : RgNode) : Heap := { h with rg := Function.update h.rg p rg }

def setVma (h : Heap) (p : Ptr) (f : VmaNode → VmaNode) : Heap :=
  { h with vma := Function.update h.vma p (f (h.vma p)) }

def setMm (h : Heap) (p : Ptr) (f : MmNode → MmNode) : Heap :=
  { h with mm := Function.update h.mm p (f (h.mm p)) }

def setPgd (h : Heap) (p : Ptr) (i : Nat) (pte : BitVec 32) : Heap :=
  { h with pgd := Function.update h.pgd p (Function.update (h.pgd p) i pte) }

/-- The loop that clears the page directory, with so many entries left. -/
def clearPgd (p : Ptr) : Nat → Nat → Heap → Heap
  | 0, _, h => h
  | left + 1, i, h => clearPgd p left (i + 1) (h.setPgd p i 0)

/-- init_vm_rg with the block it is given; `none` where it writes through NULL. -/
def initVmRg (h : Heap) (block : Ptr) (rgStart rgEnd : BitVec 32) (vmaid : Int) : Option Heap :=
  if block = 0 then none
  else some (h.setRg block ⟨vmaid, rgStart.signExtend 64, rgEnd.signExtend 64, 0⟩)

/-- enlist_vm_rg_node on the free list of an area. -/
def enlistVmRgNode (h : Heap) (vma rgnode : Ptr) : Heap :=
  let h := h.setRg rgnode { h.rg rgnode with rgNext := (h.vma vma).vmFreergList }
  h.setVma vma fun v => { v with vmFreergList := rgnode }

/-- init_mm for the data area. It writes NULL to the list of the other area, not to the one
that the region then goes on. -/
def initVma0 (h : Heap) (b : Blocks) : Option Heap := do
  let h := h.setVma b.vma0 fun v => { v with vmId := 0, vmStart := 0, vmEnd := 0, sbrk := 0 }
  let h := h.setVma b.vma1 fun v => { v with vmFreergList := 0 }
  let vma := h.vma b.vma0
  let h ← h.initVmRg b.firstRg (vma.vmStart.setWidth 32) (vma.vmEnd.setWidth 32) 0
  return h.enlistVmRgNode b.vma0 b.firstRg

/-- init_mm for the heap. -/
def initVma1 (h : Heap) (b : Blocks) : Option Heap := do
  let vmEnd := (h.vma b.vma0).vmEnd
  let h := h.setVma b.vma1 fun v => { v with
    vmId := 1, vmStart := vmEnd, vmEnd := vmEnd, sbrk := vmEnd, vmFreergList := 0 }
  let vma := h.vma b.vma1
  let h ← h.initVmRg b.heapRg (vma.vmStart.setWidth 32) (vma.vmEnd.setWidth 32) 0
  return h.enlistVmRgNode b.vma1 b.heapRg

def linkVmas (h : Heap) (mm : Ptr) (b : Blocks) : Heap :=
  let h := h.setVma b.vma0 fun v => { v with vmNext := b.vma1, vmMm := mm }
  let h := h.setVma b.vma1 fun v => { v with vmNext := 0, vmMm := mm }
  h.setMm mm fun m => { m with mmap := b.vma0 }

/-- init_mm: what it returns, and the memory after it. -/
def initMm (h : Heap) (mm : Ptr) (b : Blocks) : Option (Int × Heap) :=
  let h := { h with callerMm := mm }
  if b.vma0 = 0 then some (-1, h)
  else if b.vma1 = 0 then some (-1, h)
  else if mm = 0 then none
  else
    let h := h.setMm mm fun m => { m with pgd := b.pgd }
    if b.pgd = 0 then some (-1, h)
    else do
      let h := clearPgd b.pgd pagingMaxPgn 0 h
      let h ← h.initVma0 b
      let h ← h.initVma1 b
      return (0, h.linkVmas mm b)

/-! What the loop clears, and what it leaves alone. -/
section Clear

theorem clearPgd_frame (p : Ptr) (left i : Nat) (h : Heap) : (clearPgd p left i h).rg = h.rg ∧
    (clearPgd p left i h).vma = h.vma ∧ (clearPgd p left i h).mm = h.mm := by
  induction left generalizing i h with
  | zero => exact ⟨rfl, rfl, rfl⟩
  | succ left ih => exact ih (i + 1) (h.setPgd p i 0)

theorem clearPgd_entry (p : Ptr) (left i : Nat) (h : Heap) (j : Nat) :
    (clearPgd p left i h).pgd p j = if i ≤ j ∧ j < i + left then 0 else h.pgd p j := by
  induction left generalizing i h with
  | zero => exact (if_neg (by omega)).symm
  | succ left ih =>
      rw [clearPgd, ih]
      by_cases here : j = i
      · subst here
        rw [if_neg (by omega), if_pos (by omega)]
        simp [setPgd]
      · have kept : (h.setPgd p i 0).pgd p j = h.pgd p j := by simp [setPgd, here]
        rw [kept]
        exact if_congr (by omega) rfl rfl

end Clear

section Areas
variable {h h' : Heap} {b : Blocks}

theorem initVmRg_some {block : Ptr} {rgStart rgEnd : BitVec 32} {vmaid : Int}
    (done : h.initVmRg block rgStart rgEnd vmaid = some h') :
    block ≠ 0 ∧ h' = h.setRg block ⟨vmaid, rgStart.signExtend 64, rgEnd.signExtend 64, 0⟩ := by
  obtain ⟨some_block, same⟩ := Option.ite_none_left_eq_some.mp done
  exact ⟨some_block, (Option.some.inj same).symm⟩

/-- What the set-up of an area does to the memory: its block and that of its region. -/
theorem initVma0_some (some_vma0 : b.vma0 ≠ 0) (done : h.initVma0 b = some h') :
    b.firstRg ≠ 0 ∧ h'.pgd = h.pgd ∧ h'.mm = h.mm ∧
      h'.rg = Function.update h.rg b.firstRg ⟨0, 0, 0, (h.vma b.vma0).vmFreergList⟩ ∧
      h'.vma b.vma0 = ⟨0, 0, 0, 0, (h.vma b.vma0).vmMm, b.firstRg, (h.vma b.vma0).vmNext⟩ := by
  have vmas := b.vmas_apart some_vma0
  obtain ⟨_, made, same⟩ := Option.bind_eq_some_iff.mp done
  obtain ⟨some_rg, rfl⟩ := initVmRg_some made
  obtain rfl := Option.some.inj same
  refine ⟨some_rg, rfl, rfl, ?_, ?_⟩
  · simp [enlistVmRgNode, setVma, setRg, vmas.symm]
  · simp [enlistVmRgNode, setVma, setRg, vmas.symm]

theorem initVma1_some (some_vma0 : b.vma0 ≠ 0) (first : (h.vma b.vma0).vmEnd = 0)
    (done : h.initVma1 b = some h') :
    b.heapRg ≠ 0 ∧ h'.pgd = h.pgd ∧ h'.mm = h.mm ∧
      h'.rg = Function.update h.rg b.heapRg ⟨0, 0, 0, 0⟩ ∧
      h'.vma b.vma0 = h.vma b.vma0 ∧
      h'.vma b.vma1 = ⟨1, 0, 0, 0, (h.vma b.vma1).vmMm, b.heapRg, (h.vma b.vma1).vmNext⟩ := by
  have vmas := b.vmas_apart some_vma0
  obtain ⟨_, made, same⟩ := Option.bind_eq_some_iff.mp done
  obtain ⟨some_rg, rfl⟩ := initVmRg_some made
  obtain rfl := Option.some.inj same
  refine ⟨some_rg, rfl, rfl, ?_, ?_, ?_⟩
  · simp [enlistVmRgNode, setVma, setRg, first]
  · simp [enlistVmRgNode, setVma, setRg, vmas.symm]
  · simp [enlistVmRgNode, setVma, setRg, first]

theorem linkVmas_fields (h : Heap) (mm : Ptr) (some_vma0 : b.vma0 ≠ 0) :
    (h.linkVmas mm b).mm mm = { h.mm mm with mmap := b.vma0 } ∧
      (h.linkVmas mm b).vma b.vma0 = { h.vma b.vma0 with vmNext := b.vma1, vmMm := mm } ∧
      (h.linkVmas mm b).vma b.vma1 = { h.vma b.vma1 with vmNext := 0, vmMm := mm } := by
  have vmas := b.vmas_apart some_vma0
  refine ⟨?_, ?_, ?_⟩
  · simp [linkVmas, setMm, setVma]
  · simp [linkVmas, setMm, setVma, vmas.symm]
  · simp [linkVmas, setMm, setVma, vmas]

end Areas

/-- The stages of a call that returns 0, from the cleared page directory on. -/
theorem initMm_stages {h r : Heap} {mm : Ptr} {b : Blocks}
    (returned : h.initMm mm b = some (0, r)) : b.vma0 ≠ 0 ∧ b.vma1 ≠ 0 ∧ ∃ h₀ h₁ h₂ : Heap,
      (∀ i < pagingMaxPgn, h₀.pgd b.pgd i = 0) ∧ h₀.mm mm = { h.mm mm with pgd := b.pgd } ∧
      h₀.rg = h.rg ∧ h₀.vma = h.vma ∧ h₀.initVma0 b = some h₁ ∧ h₁.initVma1 b = some h₂ ∧
      r = h₂.linkVmas mm b := by
  unfold initMm at returned
  dsimp only at returned
  split at returned
  · cases returned
  split at returned
  · cases returned
  split at returned
  · cases returned
  split at returned
  · cases returned
  rename_i some_vma0 some_vma1 _ _
  obtain ⟨h₁, data, later⟩ := Option.bind_eq_some_iff.mp returned
  obtain ⟨h₂, heap, same⟩ := Option.bind_eq_some_iff.mp later
  obtain rfl := (Prod.mk.inj (Option.some.inj same)).2
  refine ⟨some_vma0, some_vma1, _, h₁, h₂, ?_, ?_, ?_, ?_, data, heap, rfl⟩
  · intro i inside
    rw [clearPgd_entry]
    exact if_pos ⟨Nat.zero_le i, by omega⟩
  · rw [(clearPgd_frame _ _ _ _).2.2]
    simp [setMm]
  · rw [(clearPgd_frame _ _ _ _).1]
    rfl
  · rw [(clearPgd_frame _ _ _ _).2.1]
    rfl

/-- What init_mm leaves behind where it returns 0. -/
structure Initialised (h : Heap) (mm : Ptr) (b : Blocks) (r : Heap) : Prop where
  given : b.vma0 ≠ 0 ∧ b.vma1 ≠ 0 ∧ b.firstRg ≠ 0 ∧ b.heapRg ≠ 0
  pages : ∀ i < pagingMaxPgn, r.pgd b.pgd i = 0
  written : r.mm mm = ⟨b.pgd, b.vma0, (h.mm mm).symrgtbl, (h.mm mm).fifoPgn⟩
  vma0 : r.vma b.vma0 = ⟨0, 0, 0, 0, mm, b.firstRg, b.vma1⟩
  vma1 : r.vma b.vma1 = ⟨1, 0, 0, 0, mm, b.heapRg, 0⟩
  firstRg : r.rg b.firstRg = ⟨0, 0, 0, (h.vma b.vma0).vmFreergList⟩
  heapRg : r.rg b.heapRg = ⟨0, 0, 0, 0⟩
  other_rgs : ∀ p, p ≠ b.firstRg → p ≠ b.heapRg → r.rg p = h.rg p

theorem initMm_spec {h r : Heap} {mm : Ptr} {b : Blocks} (returned : h.initMm mm b = some (0, r)) :
    h.Initialised mm b r := by
  obtain ⟨some_vma0, some_vma1, h₀, h₁, h₂, cleared, mm₀, rg₀, vma₀, data, heap, rfl⟩ :=
    initMm_stages returned
  obtain ⟨some_firstRg, pgd₁, mm₁, rg₁, vma₁⟩ := initVma0_some some_vma0 data
  obtain ⟨some_heapRg, pgd₂, mm₂, rg₂, vma₂, vma₂'⟩ :=
    initVma1_some some_vma0 (by rw [vma₁]) heap
  obtain ⟨mm₃, vma₃, vma₃'⟩ := linkVmas_fields h₂ mm some_vma0
  have rgs := b.rgs_apart some_firstRg
  have rg₃ : (h₂.linkVmas mm b).rg = h₂.rg := rfl
  refine ⟨⟨some_vma0, some_vma1, some_firstRg, some_heapRg⟩, ?_, ?_, ?_, ?_, ?_, ?_, ?_⟩
  · intro i inside
    change h₂.pgd b.pgd i = 0
    rw [pgd₂, pgd₁, cleared i inside]
  · rw [mm₃, mm₂, mm₁, mm₀]
  · rw [vma₃, vma₂, vma₁]
  · rw [vma₃', vma₂']
  · rw [rg₃, rg₂, Function.update_of_ne rgs.symm, rg₁, Function.update_self, vma₀]
  · rw [rg₃, rg₂, Function.update_self]
  · intro p not_first not_heap
    rw [rg₃, rg₂, Function.update_of_ne not_heap, rg₁, Function.update_of_ne not_first, rg₀]

/-- init_mm returns 0 wherever malloc gives it all its blocks. -/
theorem initMm_returns (h : Heap) (mm : Ptr) (b : Blocks) (some_mm : mm ≠ 0)
    (given : b.vma0 ≠ 0 ∧ b.vma1 ≠ 0 ∧ b.pgd ≠ 0 ∧ b.firstRg ≠ 0 ∧ b.heapRg ≠ 0) :
    ∃ r, h.initMm mm b = some (0, r) := by
  obtain ⟨some_vma0, some_vma1, some_pgd, some_firstRg, some_heapRg⟩ := given
  have data : ∀ h : Heap, ∃ h₁, h.initVma0 b = some h₁ := fun h => by
    rw [initVma0, initVmRg, if_neg some_firstRg]
    exact ⟨_, rfl⟩
  have heap : ∀ h : Heap, ∃ h₂, h.initVma1 b = some h₂ := fun h => by
    rw [initVma1, initVmRg, if_neg some_heapRg]
    exact ⟨_, rfl⟩
  rw [initMm, if_neg some_vma0, if_neg some_vma1, if_neg some_mm, if_neg some_pgd]
  generalize clearPgd b.pgd pagingMaxPgn 0 _ = h₀
  obtain ⟨h₁, first⟩ := data h₀
  obtain ⟨h₂, second⟩ := heap h₁
  refine ⟨h₂.linkVmas mm b, ?_⟩
  dsimp only
  rw [first, Option.bind_eq_bind, Option.bind_some, second]
  rfl

/-- A list of regions that comes to an end, all with the number. -/
def ListedFrom (r : Heap) (p : Ptr) (vmaid : Int) : Prop :=
  ∃ nodes, Chain 0 (fun q => (r.rg q).rgNext) p nodes ∧ ∀ q ∈ nodes, (r.rg q).vmaid = vmaid

theorem listedFrom_iff {r : Heap} {p : Ptr} {vmaid : Int} (some_node : p ≠ 0) :
    r.ListedFrom p vmaid ↔ (r.rg p).vmaid = vmaid ∧ r.ListedFrom (r.rg p).rgNext vmaid := by
  unfold ListedFrom
  constructor
  · rintro ⟨nodes, chain, tags⟩
    obtain ⟨rest, rfl, later⟩ := (chain_iff some_node).mp chain
    obtain ⟨here, others⟩ := List.forall_mem_cons.mp tags
    exact ⟨here, rest, later, others⟩
  · rintro ⟨here, rest, later, others⟩
    exact ⟨p :: rest, (chain_iff some_node).mpr ⟨rest, rfl, later⟩,
      List.forall_mem_cons.mpr ⟨here, others⟩⟩

/-- What init_mm should establish, whatever the memory held before. A symbol is live where
__free would free it. -/
structure Established (mm : Ptr) (b : Blocks) (r : Heap) : Prop where
  page_table : ∀ i < pagingMaxPgn, r.pgd (r.mm mm).pgd i = 0
  fifo : (r.mm mm).fifoPgn = 0
  none_live : ∀ i : Fin pagingMaxSymtblSz, ((r.mm mm).symrgtbl.get i).vmaid < 0 ∨
    1 < ((r.mm mm).symrgtbl.get i).vmaid
  areas : ∃ vma0 vma1, Chain 0 (fun p => (r.vma p).vmNext) (r.mm mm).mmap [vma0, vma1] ∧
    ((r.vma vma0).vmId = 0 ∧ r.ListedFrom (r.vma vma0).vmFreergList 0) ∧
    (r.vma vma1).vmId = 1 ∧ r.ListedFrom (r.vma vma1).vmFreergList 1
  independent : ∀ h' r', initMm h' mm b = some (0, r') → r'.mm mm = r.mm mm ∧
    r'.vma b.vma0 = r.vma b.vma0 ∧ r'.vma b.vma1 = r.vma b.vma1 ∧
    r'.rg b.firstRg = r.rg b.firstRg ∧ r'.rg b.heapRg = r.rg b.heapRg

section Returns
variable {h r : Heap} {mm : Ptr} {b : Blocks}

theorem Initialised.chain (done : h.Initialised mm b r) :
    Chain 0 (fun p => (r.vma p).vmNext) (r.mm mm).mmap [b.vma0, b.vma1] := by
  obtain ⟨some_vma0, some_vma1, -, -⟩ := done.given
  rw [done.written]
  refine ⟨some_vma0, rfl, ?_⟩
  change Chain 0 _ (r.vma b.vma0).vmNext [b.vma1]
  rw [done.vma0]
  refine ⟨some_vma1, rfl, ?_⟩
  change (r.vma b.vma1).vmNext = 0
  rw [done.vma1]

/-- The list of the data area is the new region and what the block held before as a link. -/
theorem Initialised.list_iff (done : h.Initialised mm b r) :
    r.ListedFrom (r.vma b.vma0).vmFreergList 0 ↔
      r.ListedFrom (h.vma b.vma0).vmFreergList 0 := by
  obtain ⟨-, -, some_firstRg, -⟩ := done.given
  rw [done.vma0, listedFrom_iff some_firstRg, done.firstRg]
  exact and_iff_right rfl

/-- Where that link led along a list clear of the new regions, the list goes on to be read. -/
theorem Initialised.listed_iff (done : h.Initialised mm b r) {nodes : List Ptr}
    (chain : Chain 0 (fun q => (h.rg q).rgNext) (h.vma b.vma0).vmFreergList nodes)
    (clear : ∀ q ∈ nodes, q ≠ b.firstRg ∧ q ≠ b.heapRg) :
    r.ListedFrom (r.vma b.vma0).vmFreergList 0 ↔ ∀ q ∈ nodes, (h.rg q).vmaid = 0 := by
  have same : ∀ q ∈ nodes, r.rg q = h.rg q := fun q member =>
    done.other_rgs q (clear q member).1 (clear q member).2
  have kept := chain.congr fun q member => congrArg RgNode.rgNext (same q member)
  rw [done.list_iff]
  constructor
  · rintro ⟨others, chain', tags⟩ q member
    rw [← same q member]
    exact tags q (kept.unique chain' ▸ member)
  · intro tags
    refine ⟨nodes, kept, fun q member => ?_⟩
    rw [same q member]
    exact tags q member

theorem Initialised.not_listed (done : h.Initialised mm b r) :
    ¬ r.ListedFrom (r.vma b.vma1).vmFreergList 1 := by
  obtain ⟨-, -, -, some_heapRg⟩ := done.given
  rw [done.vma1, listedFrom_iff some_heapRg, done.heapRg]
  exact fun listed => absurd listed.1 (by decide)

/-- All of the earlier contents that shows after init_mm: the symbol table, the FIFO list, and
the link that the block of the data area held. -/
theorem Initialised.agree_iff (done : h.Initialised mm b r) {h' r' : Heap}
    (done' : h'.Initialised mm b r') :
    (r'.mm mm = r.mm mm ∧ r'.vma b.vma0 = r.vma b.vma0 ∧ r'.vma b.vma1 = r.vma b.vma1 ∧
      r'.rg b.firstRg = r.rg b.firstRg ∧ r'.rg b.heapRg = r.rg b.heapRg) ↔
    (h'.mm mm).symrgtbl = (h.mm mm).symrgtbl ∧ (h'.mm mm).fifoPgn = (h.mm mm).fifoPgn ∧
      (h'.vma b.vma0).vmFreergList = (h.vma b.vma0).vmFreergList := by
  rw [done.written, done'.written, done.vma0, done'.vma0, done.vma1, done'.vma1, done.firstRg,
    done'.firstRg, done.heapRg, done'.heapRg]
  simp only [MmNode.mk.injEq, RgNode.mk.injEq, true_and, and_true, and_assoc]

/-- The memory shows the areas, with their free lists, and the symbol table. -/
def Represents (r : Heap) (mm : Ptr) (vm : Vmm) : Prop :=
  (∃ vmas, Chain 0 (fun p => (r.vma p).vmNext) (r.mm mm).mmap vmas ∧
    List.Forall₂ (fun p vma => ∃ nodes,
      Chain 0 (fun q => (r.rg q).rgNext) (r.vma p).vmFreergList nodes ∧
      vma = ⟨(r.vma p).vmId, (r.vma p).vmStart, (r.vma p).vmEnd,
        nodes.map fun q => (r.rg q).value⟩) vmas vm.mmap) ∧
  ∀ i, vm.symrg i = ((r.mm mm).symrgtbl.get i).value

/-- A memory shows one list of areas at most. -/
theorem Represents.mmap_unique {vm vm' : Vmm} (shows : r.Represents mm vm)
    (shows' : r.Represents mm vm') : vm.mmap = vm'.mmap := by
  obtain ⟨⟨vmas, chain, areas⟩, -⟩ := shows
  obtain ⟨⟨vmas', chain', areas'⟩, -⟩ := shows'
  obtain rfl := chain.unique chain'
  refine List.right_unique_forall₂' ?_ areas areas'
  rintro p vma vma' ⟨nodes, listed, rfl⟩ ⟨nodes', listed', rfl⟩
  rw [listed.unique listed']

/-- Where the block of the data area happens to hold no link, the areas are those that the model of
__alloc and __free starts from. -/
theorem Initialised.represents (done : h.Initialised mm b r)
    (no_link : (h.vma b.vma0).vmFreergList = 0) {vm : Vmm} (areas : vm.mmap = Vmm.initMm.mmap)
    (symbols : ∀ i, vm.symrg i = ((h.mm mm).symrgtbl.get i).value) : r.Represents mm vm := by
  obtain ⟨-, -, some_firstRg, some_heapRg⟩ := done.given
  refine ⟨⟨[b.vma0, b.vma1], done.chain, ?_⟩, ?_⟩
  · rw [areas]
    refine .cons ⟨[b.firstRg], ?_, ?_⟩ (.cons ⟨[b.heapRg], ?_, ?_⟩ .nil)
    · rw [done.vma0]
      refine ⟨some_firstRg, rfl, ?_⟩
      change (r.rg b.firstRg).rgNext = 0
      rw [done.firstRg, no_link]
    · simp [done.vma0, done.firstRg, RgNode.value]
    · rw [done.vma1]
      refine ⟨some_heapRg, rfl, ?_⟩
      change (r.rg b.heapRg).rgNext = 0
      rw [done.heapRg]
    · simp [done.vma1, done.heapRg, RgNode.value]
  · intro i
    rw [done.written]
    exact symbols i

theorem Initialised.not_established (done : h.Initialised mm b r) : ¬ Established mm b r := by
  intro established
  obtain ⟨vma0, vma1, chain, -, -, listed⟩ := established.areas
  obtain ⟨-, same⟩ := List.cons.inj (chain.unique done.chain)
  obtain rfl := (List.cons.inj same).1
  exact done.not_listed listed

/-- init_mm never establishes all of it: the region of the heap has the number of the data
area. -/
theorem never_established (returned : h.initMm mm b = some (0, r)) : ¬ Established mm b r :=
  (initMm_spec returned).not_established

end Returns

/-- A memory full of zeros, and blocks one after the other. -/
def zeros : Heap where
  rg _ := ⟨0, 0, 0, 0⟩
  vma _ := ⟨0, 0, 0, 0, 0, 0, 0⟩
  mm _ := ⟨0, 0, Vector.replicate pagingMaxSymtblSz ⟨0, 0, 0, 0⟩, 0⟩
  pgd _ _ := 0
  callerMm := 0

def inTurn : Blocks where
  vma0 := 2
  vma1 := 3
  pgd := 4
  firstRg := 5
  heapRg := 6
  vmas_apart _ := by decide
  rgs_apart _ := by decide

theorem never_established_zeros : ∃ r, zeros.initMm 1 inTurn = some (0, r) ∧
    ¬ Established 1 inTurn r := by
  obtain ⟨r, returned⟩ := initMm_returns zeros 1 inTurn (by decide) (by decide)
  exact ⟨r, returned, never_established returned⟩

/-- Even there the region of the heap area has number 0. -/
theorem heap_region_tagged_zero : ¬ ∀ (h r : Heap) (mm : Ptr) (b : Blocks),
    h.initMm mm b = some (0, r) → Established mm b r := by
  intro claim
  obtain ⟨r, returned⟩ := initMm_returns zeros 1 inTurn (by decide) (by decide)
  exact (initMm_spec returned).not_established (claim zeros r 1 inTurn returned)

end Heap
end OsSim
