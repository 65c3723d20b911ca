import OsSim.AccessContract

/-! Where __read and __write let an access go. They look at the VMA that an entry's number
stands for, and at nothing else: -1 stands for the first VMA, and no offset is compared
with the end of a region. -/
namespace OsSim

/-- Where in RAM the byte at an address is, while its page is there. -/
def Mm.cell (mm : Mm) (addr : BitVec 32) : Option Nat :=
  (mm.frame (pagingPgn addr)).map fun fpn => Caller.phyaddr fpn (pagingOffst addr)

namespace Vmm
variable (vm : Vmm)

/-- The byte of a region at an offset, as a virtual address. -/
def byteAt (i : Fin pagingMaxSymtblSz) (offset : BitVec 32) : Nat :=
  (vm.symrg i).rgStart.toNat + offset.toInt.toNat

/-- `rgid` names the live symbol `i`, and the offset is inside its region. Which symbols are
live, allocated and not freed since, the table does not say: init_mm leaves it as it is. -/
structure Names (live : Fin pagingMaxSymtblSz → Prop) (rgid : Int) (offset : BitVec 32)
    (i : Fin pagingMaxSymtblSz) : Prop where
  entry : symIndex rgid = some i
  live : live i
  nonneg : 0 ≤ offset.toInt
  inside : vm.byteAt i offset < (vm.symrg i).rgEnd.toNat

def LiveApart (live : Fin pagingMaxSymtblSz → Prop) : Prop :=
  ∀ i j, live i → live j → i ≠ j → Disjoint (vm.symrg i).bytes (vm.symrg j).bytes

end Vmm

namespace Pcb

/-- RAM changes in the cell of the byte that is named, and in the cell of no other byte of a
live region; if no byte is named, __write and __read return -1 and leave all as it was. -/
structure AccessConfined (p : Pcb) (live : Fin pagingMaxSymtblSz → Prop) (rgid : Int)
    (offset : BitVec 32) : Prop where
  confined : ∀ value ret p', p.write rgid offset value = .ok (ret, p') →
    ∀ x, p'.caller.mram.storage x ≠ p.caller.mram.storage x →
      ∃ i, p.vm.Names live rgid offset i ∧
        p'.caller.mm.cell (BitVec.ofNat 32 (p.vm.byteAt i offset)) = some x ∧
        ∀ j, live j → ∀ y ∈ (p.vm.symrg j).bytes, j ≠ i ∨ y ≠ p.vm.byteAt i offset →
          p'.caller.mm.cell (BitVec.ofNat 32 y) ≠ some x
  write_rejects : (¬ ∃ i, p.vm.Names live rgid offset i) → ∀ value,
    ∃ p', p.write rgid offset value = .ok (-1, p') ∧
      p'.caller.mram = p.caller.mram ∧ p'.caller.mm = p.caller.mm
  read_rejects : (¬ ∃ i, p.vm.Names live rgid offset i) →
    ∃ data p', p.read rgid offset = .ok (-1, data, p') ∧
      p'.caller.mram = p.caller.mram ∧ p'.caller.mm = p.caller.mm

/-- The byte has a cell of its own: its page is not swapped out, no other byte of a live
region has its 22-bit address, and if the page takes the place of a victim, none of them
is in the frame that has the number of the victim. -/
structure OwnCell (p : Pcb) (live : Fin pagingMaxSymtblSz → Prop) (i : Fin pagingMaxSymtblSz)
    (offset : BitVec 32) : Prop where
  kept : PtePresent (p.caller.mm.pgd (pagingPgn ((p.vm.symrg i).addr offset))) →
    ¬ PteSwapped (p.caller.mm.pgd (pagingPgn ((p.vm.symrg i).addr offset)))
  unwrapped : ∀ j, live j → ∀ y ∈ (p.vm.symrg j).bytes, y ≠ p.vm.byteAt i offset →
    ¬ SameAddress ((p.vm.symrg i).addr offset) (BitVec.ofNat 32 y)
  replaced : ¬ PtePresent (p.caller.mm.pgd (pagingPgn ((p.vm.symrg i).addr offset))) →
    ∀ vicpgn ∈ p.caller.mm.fifoPgn.getLast?, ∀ j, live j → ∀ y ∈ (p.vm.symrg j).bytes,
      y ≠ p.vm.byteAt i offset → pagingPgn (BitVec.ofNat 32 y) ≠ vicpgn →
      p.caller.mm.cell (BitVec.ofNat 32 y) ≠ some (p.caller.cellFor ((p.vm.symrg i).addr offset))

/-- The id is of the table, and its VMA is not there, or a byte is named that has a cell of
its own if the access reaches RAM. -/
def AccessNamed (p : Pcb) (live : Fin pagingMaxSymtblSz → Prop) (rgid : Int)
    (offset : BitVec 32) : Prop :=
  ∃ i, symIndex rgid = some i ∧
    (p.vm.getVmaByNum (p.vm.symrg i).vmaid = none ∨ p.vm.Names live rgid offset i ∧
      (p.caller.Reaches ((p.vm.symrg i).addr offset) → p.OwnCell live i offset))

end Pcb

/-- The sum that __read and __write pass on is the address of the byte. -/
theorem Vmm.byteAt_addr (vm : Vmm) (i : Fin pagingMaxSymtblSz) {offset : BitVec 32}
    (nonneg : 0 ≤ offset.toInt) :
    BitVec.ofNat 32 (vm.byteAt i offset) = (vm.symrg i).addr offset := by
  have sign := BitVec.toInt_eq_toNat_cond offset
  have bound := offset.isLt
  have small : 2 * offset.toNat < 2 ^ 32 := by
    split at sign <;> omega
  have value : offset.toInt.toNat = offset.toNat := by
    rw [if_pos small] at sign
    rw [sign, Int.toNat_natCast]
  have msb : offset.msb = false := by
    rw [BitVec.msb_eq_false_iff_two_mul_lt]
    exact small
  apply BitVec.eq_of_toNat_eq
  rw [VmRg.addr, BitVec.signExtend_eq_setWidth_of_msb_false msb, byteAt, value]
  simp only [BitVec.toNat_ofNat, BitVec.toNat_setWidth, BitVec.toNat_add]
  omega

theorem Vmm.Names.mem_bytes {vm : Vmm} {live : Fin pagingMaxSymtblSz → Prop} {rgid : Int}
    {offset : BitVec 32} {i : Fin pagingMaxSymtblSz} (named : vm.Names live rgid offset i) :
    vm.byteAt i offset ∈ (vm.symrg i).bytes :=
  ⟨Nat.le_add_right _ _, named.inside⟩

/-- Where the live regions are apart, another byte is one at another address. -/
theorem Vmm.Names.elsewhere {vm : Vmm} {live : Fin pagingMaxSymtblSz → Prop} {rgid : Int}
    {offset : BitVec 32} {i : Fin pagingMaxSymtblSz} (named : vm.Names live rgid offset i)
    (apart : vm.LiveApart live) {j : Fin pagingMaxSymtblSz} (alive : live j) {y : Nat}
    (inside : y ∈ (vm.symrg j).bytes) (other : j ≠ i ∨ y ≠ vm.byteAt i offset) :
    y ≠ vm.byteAt i offset := by
  intro same
  rcases other with other | elsewhere
  · have disjoint := apart j i alive named.live other
    exact Set.disjoint_left.mp disjoint (same ▸ inside) named.mem_bytes
  · exact elsewhere same

namespace Mm
variable {mm : Mm}

theorem cell_eq_some {addr : BitVec 32} {x : Nat} : mm.cell addr = some x ↔
    ∃ fpn, mm.frame (pagingPgn addr) = some fpn ∧ Caller.phyaddr fpn (pagingOffst addr) = x :=
  Option.map_eq_some_iff

/-- Addresses with one cell are one address, if the pages have frames of their own. -/
theorem FramesDistinct.same_address (distinct : mm.FramesDistinct) {a b : BitVec 32} {x : Nat}
    (left : mm.cell a = some x) (right : mm.cell b = some x) : SameAddress a b := by
  rcases cell_eq_some.mp left with ⟨fpn, holds, rfl⟩
  rcases cell_eq_some.mp right with ⟨fpn', holds', same⟩
  obtain ⟨rfl, offst⟩ := Caller.phyaddr_inj (pagingOffst_lt _) (pagingOffst_lt _) same
  exact (same_address_iff a b).mpr ⟨distinct _ _ _ holds holds', offst.symm⟩

theorem cell_congr {a b : BitVec 32} (same : SameAddress a b) : mm.cell a = mm.cell b := by
  obtain ⟨page, offst⟩ := (same_address_iff a b).mp same
  rw [cell, cell, page, offst]

end Mm

namespace Caller
variable {c : Caller} {addr : BitVec 32}

/-- The cells after pg_getpage for an address: as before if its page was present, and else
the victim has none left, and the page has those of the frame it is given. -/
inductive CellsAfter (c : Caller) (addr : BitVec 32) (mm : Mm) : Prop
  | hit : PtePresent (c.mm.pgd (pagingPgn addr)) → mm = c.mm → CellsAfter c addr mm
  | fault {vicpgn} : ¬ PtePresent (c.mm.pgd (pagingPgn addr)) →
      c.mm.fifoPgn.getLast? = some vicpgn →
      (∀ b, mm.cell b = if pagingPgn b = pagingPgn addr then
          some (phyaddr (c.fpnFor (pagingPgn addr)) (pagingOffst b))
        else if pagingPgn b = vicpgn then none else c.mm.cell b) → CellsAfter c addr mm

theorem cellsAfter (has : c.HasPage (pagingPgn addr)) :
    CellsAfter c addr (c.pgGetpage (pagingPgn addr)).2.mm := by
  have spec := c.pgGetpage_spec (pagingPgn addr)
  generalize c.pgGetpage (pagingPgn addr) = r at spec ⊢
  rcases r with ⟨res, c'⟩
  change GetPage c (pagingPgn addr) res c' at spec
  cases spec with
  | hit present => exact .hit present rfl
  | noVictim absent nil => exact absurd nil (has.resolve_left absent).1
  | noSwap absent _ full => exact absurd full (has.resolve_left absent).2
  | @fault vicpgn rest _ absent fifo _ _ _ frame =>
      have last : c.mm.fifoPgn.getLast? = some vicpgn := by simp [fifo]
      refine .fault absent last ?_
      intro b
      change (c'.mm.frame _).map _ = _
      rw [frame, fpnFor, if_neg absent, last, Function.update_apply, Function.update_apply]
      split
      · rfl
      · split
        · rfl
        · rfl

/-- The page is in the frame that pg_getpage returns, unless it was taken to be in RAM
while it was swapped out. -/
theorem CellsAfter.own_iff {mm : Mm} (after : CellsAfter c addr mm) :
    mm.cell addr = some (c.cellFor addr) ↔
      (PtePresent (c.mm.pgd (pagingPgn addr)) → ¬ PteSwapped (c.mm.pgd (pagingPgn addr))) := by
  cases after with
  | hit present same =>
      rw [same, cellFor, fpnFor, if_pos present]
      constructor
      · intro cell _ swapped
        rcases Mm.cell_eq_some.mp cell with ⟨fpn, holds, -⟩
        exact (pteFrame_some holds).2.1 swapped
      · intro kept
        exact Mm.cell_eq_some.mpr ⟨_, if_pos ⟨present, kept present⟩, rfl⟩
  | fault absent _ cells =>
      rw [cells, if_pos rfl]
      exact iff_of_true rfl fun present => absurd present absent

/-- Another address has that cell where it is the same one, or where a page that is not the
victim is in the frame with the number of the victim. -/
theorem CellsAfter.other_iff {mm : Mm} (after : CellsAfter c addr mm)
    (distinct : c.mm.FramesDistinct) (own : mm.cell addr = some (c.cellFor addr))
    (b : BitVec 32) : mm.cell b ≠ some (c.cellFor addr) ↔ ¬ SameAddress addr b ∧
      (¬ PtePresent (c.mm.pgd (pagingPgn addr)) → ∀ vicpgn ∈ c.mm.fifoPgn.getLast?,
        pagingPgn b ≠ vicpgn → c.mm.cell b ≠ some (c.cellFor addr)) := by
  cases after with
  | hit present same =>
      rw [same] at own ⊢
      constructor
      · intro other
        refine ⟨fun here => other ?_, fun absent => absurd present absent⟩
        rw [← Mm.cell_congr here, own]
      · rintro ⟨elsewhere, -⟩ cell
        exact elsewhere (distinct.same_address own cell)
  | @fault vicpgn absent last cells =>
      constructor
      · intro other
        refine ⟨fun here => other ?_, ?_⟩
        · rw [← Mm.cell_congr here, own]
        · intro _ v member kept
          obtain rfl : v = vicpgn := Option.some.inj (Eq.symm (last.symm.trans member))
          rw [cells] at other
          split at other
          · rename_i page
            intro cell
            rcases Mm.cell_eq_some.mp cell with ⟨fpn, holds, -⟩
            rw [page] at holds
            exact absent (pteFrame_some holds).1
          · exact other
      · rintro ⟨elsewhere, others⟩ cell
        rw [cells] at cell
        split at cell
        · rename_i page
          obtain ⟨-, offst⟩ := phyaddr_inj (pagingOffst_lt _) (pagingOffst_lt _)
            (Option.some.inj cell)
          exact elsewhere ((same_address_iff addr b).mpr ⟨page.symm, offst.symm⟩)
        · split at cell
          · cases cell
          · exact others absent vicpgn last ‹_› cell

end Caller

namespace Pcb
variable {p : Pcb} {live : Fin pagingMaxSymtblSz → Prop} {rgid : Int} {offset : BitVec 32}
  {i : Fin pagingMaxSymtblSz}

/-- A write that reaches RAM is confined exactly if the byte has a cell of its own. -/
theorem ownCell_iff (apart : p.vm.LiveApart live) (distinct : p.caller.mm.FramesDistinct)
    (named : p.vm.Names live rgid offset i) {mm : Mm}
    (after : Caller.CellsAfter p.caller ((p.vm.symrg i).addr offset) mm) :
    p.OwnCell live i offset ↔
      mm.cell (BitVec.ofNat 32 (p.vm.byteAt i offset)) =
        some (p.caller.cellFor ((p.vm.symrg i).addr offset)) ∧
      ∀ j, live j → ∀ y ∈ (p.vm.symrg j).bytes, j ≠ i ∨ y ≠ p.vm.byteAt i offset →
        mm.cell (BitVec.ofNat 32 y) ≠ some (p.caller.cellFor ((p.vm.symrg i).addr offset)) := by
  rw [p.vm.byteAt_addr i named.nonneg]
  constructor
  · intro alone
    have own := after.own_iff.mpr alone.kept
    refine ⟨own, ?_⟩
    intro j alive y inside other
    have elsewhere := named.elsewhere apart alive inside other
    exact (after.other_iff distinct own _).mpr ⟨alone.unwrapped j alive y inside elsewhere,
      fun absent v member => alone.replaced absent v member j alive y inside elsewhere⟩
  · rintro ⟨own, others⟩
    have split := fun y j alive inside elsewhere =>
      (after.other_iff distinct own _).mp (others j alive y inside (.inr elsewhere))
    exact ⟨after.own_iff.mp own, fun j alive y inside elsewhere =>
      (split y j alive inside elsewhere).1, fun absent v member j alive y inside elsewhere =>
      (split y j alive inside elsewhere).2 absent v member⟩

theorem names_unique {j : Fin pagingMaxSymtblSz} (inside : symIndex rgid = some i)
    (named : p.vm.Names live rgid offset j) : j = i :=
  Option.some.inj (named.entry.symm.trans inside)

/-- Where no byte is named, the id is of the table and its VMA is not there. -/
theorem AccessConfined.rejected (confined : p.AccessConfined live rgid offset)
    (unnamed : ¬ ∃ i, p.vm.Names live rgid offset i) :
    ∃ i, symIndex rgid = some i ∧ p.vm.getVmaByNum (p.vm.symrg i).vmaid = none := by
  rcases confined.write_rejects unnamed 0 with ⟨p', returned, -⟩
  cases inside : symIndex rgid with
  | none =>
      rcases p.write_outside offset inside 0 with ⟨f, fault, -⟩
      cases fault.symm.trans returned
  | some i =>
      refine ⟨i, rfl, ?_⟩
      cases area : p.vm.getVmaByNum (p.vm.symrg i).vmaid with
      | none => rfl
      | some vma =>
          rw [p.write_vma offset inside 0 area] at returned
          cases returned

/-- A write that reaches RAM is seen there if the byte is another one than before. -/
theorem write_reaches (inside : symIndex rgid = some i) {vma : VmArea}
    (area : p.vm.getVmaByNum (p.vm.symrg i).vmaid = some vma)
    (reaches : p.caller.Reaches ((p.vm.symrg i).addr offset)) (value : BitVec 8) :
    ∃ p', p.write rgid offset value = .ok (0, p') ∧
      Caller.CellsAfter p.caller ((p.vm.symrg i).addr offset) p'.caller.mm ∧
      p'.caller.mram.storage = Function.update p.caller.mram.storage
        (p.caller.cellFor ((p.vm.symrg i).addr offset)) value := by
  rcases p.caller.pgSetval_reaches _ value reaches with ⟨c', result, mm, storage⟩
  have after := Caller.cellsAfter reaches.1
  rw [← mm] at after
  refine ⟨{ p with caller := c' }, ?_, after, storage⟩
  rw [p.write_vma offset inside value area, result]

theorem confined_no_vma (inside : symIndex rgid = some i)
    (area : p.vm.getVmaByNum (p.vm.symrg i).vmaid = none) : p.AccessConfined live rgid offset := by
  have unchanged : ∀ value, p.write rgid offset value = .ok (-1, p) := fun value =>
    p.write_no_vma offset inside value area
  refine ⟨?_, ?_, ?_⟩
  · intro value ret p' returned x changed
    obtain ⟨-, rfl⟩ := Prod.mk.inj (Except.ok.inj ((unchanged value).symm.trans returned))
    exact absurd rfl changed
  · exact fun _ value => ⟨p, unchanged value, rfl, rfl⟩
  · exact fun _ => ⟨none, p, p.read_no_vma offset inside area, rfl, rfl⟩

theorem AccessNamed.confined (apart : p.vm.LiveApart live)
    (distinct : p.caller.mm.FramesDistinct) (access : p.AccessNamed live rgid offset) :
    p.AccessConfined live rgid offset := by
  rcases access with ⟨i, inside, passes⟩
  cases area : p.vm.getVmaByNum (p.vm.symrg i).vmaid with
  | none => exact confined_no_vma inside area
  | some vma =>
      rw [area] at passes
      obtain ⟨named, alone⟩ := passes.resolve_left (Option.some_ne_none vma)
      refine ⟨?_, fun unnamed => absurd ⟨i, named⟩ unnamed,
        fun unnamed => absurd ⟨i, named⟩ unnamed⟩
      intro value ret p' returned x changed
      by_cases reaches : p.caller.Reaches ((p.vm.symrg i).addr offset)
      · rcases write_reaches inside area reaches value with ⟨p'', returned', after, storage⟩
        obtain ⟨-, rfl⟩ := Prod.mk.inj (Except.ok.inj (returned'.symm.trans returned))
        obtain rfl : x = p.caller.cellFor ((p.vm.symrg i).addr offset) := by
          by_contra elsewhere
          rw [storage, Function.update_of_ne elsewhere] at changed
          exact changed rfl
        exact ⟨i, named, (ownCell_iff apart distinct named after).mp (alone reaches)⟩
      · rcases p.caller.pgSetval_misses _ value reaches with ⟨c', result, mram⟩
        rw [p.write_vma offset inside value area, result] at returned
        obtain ⟨-, rfl⟩ := Prod.mk.inj (Except.ok.inj returned)
        rw [show c'.mram = p.caller.mram from mram] at changed
        exact absurd rfl changed

theorem AccessConfined.named (apart : p.vm.LiveApart live)
    (distinct : p.caller.mm.FramesDistinct) (confined : p.AccessConfined live rgid offset) :
    p.AccessNamed live rgid offset := by
  by_cases named : ∃ i, p.vm.Names live rgid offset i
  · rcases named with ⟨i, named⟩
    refine ⟨i, named.entry, ?_⟩
    cases area : p.vm.getVmaByNum (p.vm.symrg i).vmaid with
    | none => exact .inl rfl
    | some vma =>
        refine .inr ⟨named, ?_⟩
        intro reaches
        -- a value that is not in the cell yet
        let addr := (p.vm.symrg i).addr offset
        let value := p.caller.mram.storage (p.caller.cellFor addr) + 1
        rcases write_reaches named.entry area reaches value with ⟨p', returned, after, storage⟩
        have changed : p'.caller.mram.storage (p.caller.cellFor addr) ≠
            p.caller.mram.storage (p.caller.cellFor addr) := by
          rw [storage, Function.update_self]
          exact BitVec.add_right_eq_self.not.mpr (by decide)
        rcases confined.confined value 0 p' returned _ changed with ⟨j, named', own⟩
        obtain rfl := names_unique named.entry named'
        exact (ownCell_iff apart distinct named after).mpr own
  · rcases confined.rejected named with ⟨i, inside, area⟩
    exact ⟨i, inside, .inl area⟩

/-- Access is confined exactly where the VMA is not there, or a byte of a live region is
named and has a cell of its own if the access reaches RAM. -/
theorem accessConfined_iff (apart : p.vm.LiveApart live) (distinct : p.caller.mm.FramesDistinct)
    (rgid : Int) (offset : BitVec 32) :
    p.AccessConfined live rgid offset ↔ p.AccessNamed live rgid offset :=
  ⟨AccessConfined.named apart distinct, AccessNamed.confined apart distinct⟩

theorem mapped_frame (byte : BitVec 8) (code : List Inst) (q : Pgn) :
    (mapped byte code).caller.mm.frame q = if q = 1 then some 0 else none := by
  change (Mm.init.setPte 1 (pteSetFpn 0 0)).frame q = _
  rw [Mm.setPte_frame, pteSetFpn_frame, Nat.zero_mod, Function.update_apply, Mm.init_frame]

theorem mapped_distinct (byte : BitVec 8) (code : List Inst) :
    (mapped byte code).caller.mm.FramesDistinct := by
  intro q r fpn left right
  rw [mapped_frame, Option.ite_none_right_eq_some] at left right
  exact left.1.trans right.1.symm

theorem only_apart (vm : Vmm) : vm.LiveApart (· = 5) := by
  rintro i j rfl rfl other
  exact absurd rfl other

/-- Symbol 5 is [300, 400), all of it on page 1, which is in frame 0. -/
theorem accessConfined_iff_mapped : (mapped 0 []).AccessConfined (· = 5) 5 10 := by
  refine (accessConfined_iff (only_apart _) (mapped_distinct 0 []) 5 10).mpr
    ⟨5, rfl, .inr ⟨⟨rfl, rfl, by decide, by decide⟩, fun _ => ⟨?_, ?_, ?_⟩⟩⟩
  · decide +kernel
  · rintro j rfl y ⟨low, high⟩ elsewhere same
    have value : (BitVec.ofNat 32 310).setWidth 22 = (BitVec.ofNat 32 y).setWidth 22 := same
    have := congrArg BitVec.toNat value
    simp only [BitVec.toNat_setWidth, BitVec.toNat_ofNat] at this
    change 300 ≤ y at low
    change y < 400 at high
    change y ≠ 310 at elsewhere
    omega
  · exact fun absent => absurd (by decide +kernel) absent

/-- Symbol 0 is not live, and its entry is -1: a write through it evicts page 1. -/
theorem dead_symbol_written : ¬ ∀ (p : Pcb) (live : Fin pagingMaxSymtblSz → Prop) (rgid : Int)
    (offset : BitVec 32), p.vm.LiveApart live → p.caller.mm.FramesDistinct →
      p.AccessConfined live rgid offset := by
  intro claim
  have confined := claim (mapped 0 []) (· = 5) 0 0 (only_apart _) (mapped_distinct 0 [])
  have unnamed : ¬ ∃ i, (mapped 0 []).vm.Names (· = 5) 0 0 i := by
    rintro ⟨i, named⟩
    obtain rfl := named.live
    cases named.entry
  rcases confined.rejected unnamed with ⟨i, inside, area⟩
  obtain rfl : i = 0 := Option.some.inj inside.symm
  cases area

end Pcb
end OsSim
