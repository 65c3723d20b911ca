import OsSim.SymtblSafety

/-! What READ and WRITE report. __read and __write return 0 whether or not pg_getval and
pg_setval went through, and pgread never passes the byte on to the register. -/
namespace OsSim

namespace Caller
variable (c : Caller) (pgn : Pgn)

/-- pg_getpage has a frame to return: the page is present, or there is a victim and a
frame to swap it out to. -/
def HasPage : Prop :=
  PtePresent (c.mm.pgd pgn) ∨ c.mm.fifoPgn ≠ [] ∧ c.activeMswp.freeFpList ≠ []

/-- The frame it then returns. -/
def fpnFor : Nat :=
  if PtePresent (c.mm.pgd pgn) then pteFpn (c.mm.pgd pgn)
  else ((c.mm.fifoPgn.getLast?.map fun vicpgn => vicpgn.val % 2 ^ 13).getD 0)

instance : Decidable (c.HasPage pgn) := inferInstanceAs (Decidable (_ ∨ _ ∧ _))

/-- Where in RAM an access to the address goes. -/
def cellFor (addr : BitVec 32) : Nat := phyaddr (c.fpnFor (pagingPgn addr)) (pagingOffst addr)

/-- An access to the address reaches RAM, and RAM is not a sequential device. -/
def Reaches (addr : BitVec 32) : Prop := c.HasPage (pagingPgn addr) ∧ c.mram.rdmflg = true

instance (addr : BitVec 32) : Decidable (c.Reaches addr) := inferInstanceAs (Decidable (_ ∧ _))

theorem pgGetpage_result : ∃ c', c'.mram = c.mram ∧
    c.pgGetpage pgn = (if c.HasPage pgn then some (c.fpnFor pgn) else none, c') := by
  have spec := c.pgGetpage_spec pgn
  generalize c.pgGetpage pgn = r at spec ⊢
  rcases r with ⟨res, c'⟩
  change GetPage c pgn res c' at spec
  cases spec with
  | hit present =>
      have has : c.HasPage pgn := .inl present
      rw [if_pos has, fpnFor, if_pos present]
      exact ⟨c, rfl, rfl⟩
  | noVictim absent nil =>
      have lacks : ¬ c.HasPage pgn := by
        rintro (present | ⟨listed, -⟩)
        · exact absent present
        · exact listed nil
      rw [if_neg lacks]
      exact ⟨c, rfl, rfl⟩
  | noSwap absent _ full =>
      have lacks : ¬ c.HasPage pgn := by
        rintro (present | ⟨-, room⟩)
        · exact absent present
        · exact room full
      rw [if_neg lacks]
      refine ⟨_, ?_, rfl⟩
      rfl
  | @fault vicpgn rest _ absent fifo room mram =>
      have last : c.mm.fifoPgn.getLast? = some vicpgn := by simp [fifo]
      have has : c.HasPage pgn := .inr ⟨by simp [fifo], room⟩
      rw [if_pos has, fpnFor, if_neg absent, last]
      exact ⟨c', mram, rfl⟩

variable (addr : BitVec 32) (value : BitVec 8)

theorem pgGetval_fst : (c.pgGetval addr).1 =
    if c.Reaches addr then some (c.mram.storage (c.cellFor addr)) else none := by
  rcases c.pgGetpage_result (pagingPgn addr) with ⟨c', kept, result⟩
  rw [pgGetval, result]
  by_cases has : c.HasPage (pagingPgn addr)
  · have reaches : c.Reaches addr ↔ c'.mram.rdmflg = true := by
      rw [kept]
      exact and_iff_right has
    rw [if_pos has, if_congr reaches rfl rfl, ← kept]
    rfl
  · rw [if_neg has, if_neg (has ·.1)]

theorem pgSetval_reaches (reaches : c.Reaches addr) :
    ∃ c', c.pgSetval addr value = (true, c') ∧
      c'.mm = (c.pgGetpage (pagingPgn addr)).2.mm ∧
      c'.mram.storage = Function.update c.mram.storage (c.cellFor addr) value := by
  rcases c.pgGetpage_result (pagingPgn addr) with ⟨c', kept, result⟩
  have random : c'.mram.rdmflg = true := by
    rw [kept]
    exact reaches.2
  rw [pgSetval, result, if_pos reaches.1]
  dsimp only
  rw [Memphy.write, if_pos random]
  refine ⟨_, rfl, rfl, ?_⟩
  rw [kept]
  rfl

theorem pgSetval_misses (misses : ¬ c.Reaches addr) :
    ∃ c', c.pgSetval addr value = (false, c') ∧ c'.mram = c.mram := by
  rcases c.pgGetpage_result (pagingPgn addr) with ⟨c', kept, result⟩
  refine ⟨c', ?_, kept⟩
  rw [pgSetval, result]
  by_cases has : c.HasPage (pagingPgn addr)
  · have sequential : ¬ c'.mram.rdmflg = true := by
      rw [kept]
      exact fun random => misses ⟨has, random⟩
    rw [if_pos has]
    dsimp only
    rw [Memphy.write, if_neg sequential]
  · rw [if_neg has]

theorem pgSetval_fst : (c.pgSetval addr value).1 = true ↔ c.Reaches addr := by
  by_cases reaches : c.Reaches addr
  · rcases c.pgSetval_reaches addr value reaches with ⟨c', result, -⟩
    rw [result]
    exact iff_of_true rfl reaches
  · rcases c.pgSetval_misses addr value reaches with ⟨c', result, -⟩
    rw [result]
    exact iff_of_false Bool.false_ne_true reaches

end Caller

/-- READ or WRITE with register ids that are of the tables. -/
inductive Access where
  | read (src : Fin pagingMaxSymtblSz) (offset : BitVec 32) (dst : Fin 10)
  | write (value : BitVec 32) (dst : Fin pagingMaxSymtblSz) (offset : BitVec 32)

def Access.ins : Access → Inst
  | .read src offset dst => ⟨.read, BitVec.ofNat 32 src, offset, BitVec.ofNat 32 dst⟩
  | .write value dst offset => ⟨.write, value, BitVec.ofNat 32 dst, offset⟩

namespace Pcb
variable (p : Pcb)

/-- The VMA of the region is found and pg_getval reads the byte at the offset in it. -/
def Reads (i : Fin pagingMaxSymtblSz) (offset : BitVec 32) (data : BitVec 8) : Prop :=
  (p.vm.getVmaByNum (p.vm.symrg i).vmaid).isSome ∧
    (p.caller.pgGetval ((p.vm.symrg i).addr offset)).1 = some data

/-- The VMA of the region is found and pg_setval stores the byte. -/
def Stores (i : Fin pagingMaxSymtblSz) (offset : BitVec 32) (value : BitVec 8) : Prop :=
  (p.vm.getVmaByNum (p.vm.symrg i).vmaid).isSome ∧
    (p.caller.pgSetval ((p.vm.symrg i).addr offset) value).1 = true

/-- run returns 0 where the access took place and something else where it did not, and the
registers take the byte read, and no other change. -/
def AccessKept : Access → Prop
  | .read src offset dst => ∃ ret p', p.run = .ok (ret, p') ∧
      (ret = 0 ↔ ∃ data, p.Reads src offset data) ∧
      (∀ data, p.Reads src offset data →
        p'.regs = p.regs.set dst.val (data.signExtend 32) dst.isLt) ∧
      ((¬ ∃ data, p.Reads src offset data) → p'.regs = p.regs)
  | .write value dst offset => ∃ ret p', p.run = .ok (ret, p') ∧
      (ret = 0 ↔ p.Stores dst offset (value.setWidth 8)) ∧
      (¬ p.Stores dst offset (value.setWidth 8) → p'.regs = p.regs)

/-- The access fails before paging is asked, or paging goes through; and the register has
the byte that READ should put there. -/
def AccessPasses : Access → Prop
  | .read src offset dst => p.vm.getVmaByNum (p.vm.symrg src).vmaid = none ∨
      p.caller.Reaches ((p.vm.symrg src).addr offset) ∧ p.regs.get dst =
        (p.caller.mram.storage (p.caller.cellFor ((p.vm.symrg src).addr offset))).signExtend 32
  | .write _ dst offset => p.vm.getVmaByNum (p.vm.symrg dst).vmaid = none ∨
      p.caller.Reaches ((p.vm.symrg dst).addr offset)

theorem reads_iff (i : Fin pagingMaxSymtblSz) (offset : BitVec 32) (data : BitVec 8) :
    p.Reads i offset data ↔ p.vm.getVmaByNum (p.vm.symrg i).vmaid ≠ none ∧
      p.caller.Reaches ((p.vm.symrg i).addr offset) ∧
      p.caller.mram.storage (p.caller.cellFor ((p.vm.symrg i).addr offset)) = data := by
  rw [Reads, Caller.pgGetval_fst, Option.ite_none_right_eq_some, Option.some_inj,
    Option.isSome_iff_ne_none]

theorem stores_iff (i : Fin pagingMaxSymtblSz) (offset : BitVec 32) (value : BitVec 8) :
    p.Stores i offset value ↔ p.vm.getVmaByNum (p.vm.symrg i).vmaid ≠ none ∧
      p.caller.Reaches ((p.vm.symrg i).addr offset) := by
  rw [Stores, Caller.pgSetval_fst, Option.isSome_iff_ne_none]

theorem symIndex_ofNat (i : Fin pagingMaxSymtblSz) :
    symIndex (BitVec.ofNat 32 i.val).toInt = some i := by
  have small : i.val < 2 ^ 32 := i.isLt.trans (by decide)
  have inside : (BitVec.ofNat 32 i.val).toNat = i.val := by
    rw [BitVec.toNat_ofNat, Nat.mod_eq_of_lt small]
  have below : (BitVec.ofNat 32 i.val).toNat < pagingMaxSymtblSz := inside.trans_lt i.isLt
  rw [symIndex_inside below]
  exact congrArg some (Fin.ext inside)

/-- run on an access: the status is 0 where the VMA is found, and the registers stay. -/
theorem run_access {a : Access} (at_ins : p.Fetches a.ins) (i : Fin pagingMaxSymtblSz)
    (named : a.ins.regIndex = some (BitVec.ofNat 32 i.val)) : ∃ ret p', p.run = .ok (ret, p') ∧
      (ret = 0 ↔ p.vm.getVmaByNum (p.vm.symrg i).vmaid ≠ none) ∧ p'.regs = p.regs := by
  have inside := symIndex_ofNat i
  let q : Pcb := { p with pc := p.pc + 1 }
  rw [run_eq at_ins]
  cases a with
  | read src offset dst =>
      obtain named : BitVec.ofNat 32 src.val = BitVec.ofNat 32 i.val := Option.some.inj named
      change ∃ ret p', q.pgread (BitVec.ofNat 32 src.val) offset (BitVec.ofNat 32 dst.val) = _ ∧ _
      rw [named, pgread]
      cases area : p.vm.getVmaByNum (p.vm.symrg i).vmaid with
      | none =>
          rw [q.read_no_vma offset inside area]
          exact ⟨-1, q, rfl, by simp, rfl⟩
      | some vma =>
          rw [q.read_vma offset inside area]
          exact ⟨0, _, rfl, by simp, rfl⟩
  | write value dst offset =>
      obtain named : BitVec.ofNat 32 dst.val = BitVec.ofNat 32 i.val := Option.some.inj named
      change ∃ ret p', q.pgwrite _ (BitVec.ofNat 32 dst.val) offset = _ ∧ _
      rw [named, pgwrite]
      cases area : p.vm.getVmaByNum (p.vm.symrg i).vmaid with
      | none =>
          rw [q.write_no_vma offset inside _ area]
          exact ⟨-1, q, rfl, by simp, rfl⟩
      | some vma =>
          rw [q.write_vma offset inside _ area]
          exact ⟨0, _, rfl, by simp, rfl⟩

theorem regs_eq_set (regs : Vector (BitVec 32) 10) (dst : Fin 10) (x : BitVec 32) :
    regs = regs.set dst.val x dst.isLt ↔ regs.get dst = x := by
  constructor
  · intro same
    rw [same]
    exact Vector.getElem_set_self dst.isLt
  · rintro rfl
    exact (Vector.set_getElem_self dst.isLt).symm

theorem readKept_iff {p : Pcb} {src : Fin pagingMaxSymtblSz} {offset : BitVec 32} {dst : Fin 10}
    (at_ins : p.Fetches (Access.read src offset dst).ins) :
    p.AccessKept (.read src offset dst) ↔ p.AccessPasses (.read src offset dst) := by
  rcases p.run_access at_ins src rfl with ⟨ret, p', returned, status, regs⟩
  unfold AccessKept AccessPasses
  simp only [reads_iff]
  constructor
  · rintro ⟨ret', p'', returned', kept, stored, -⟩
    obtain ⟨rfl, rfl⟩ := Prod.mk.inj (Except.ok.inj (returned.symm.trans returned'))
    by_cases area : p.vm.getVmaByNum (p.vm.symrg src).vmaid = none
    · exact .inl area
    · obtain ⟨data, -, reaches, byte⟩ := kept.mp (status.mpr area)
      refine .inr ⟨reaches, ?_⟩
      have set := stored data ⟨area, reaches, byte⟩
      rw [regs] at set
      rw [byte]
      exact (regs_eq_set p.regs dst _).mp set
  · intro passes
    refine ⟨ret, p', returned, status.trans ?_, ?_, fun _ => regs⟩
    · constructor
      · intro area
        exact ⟨_, area, (passes.resolve_left area).1, rfl⟩
      · rintro ⟨data, area, -⟩
        exact area
    · rintro data ⟨area, -, byte⟩
      have same := (passes.resolve_left area).2
      rw [byte] at same
      rw [regs]
      exact (regs_eq_set p.regs dst _).mpr same

theorem writeKept_iff {p : Pcb} {value offset : BitVec 32} {dst : Fin pagingMaxSymtblSz}
    (at_ins : p.Fetches (Access.write value dst offset).ins) :
    p.AccessKept (.write value dst offset) ↔ p.AccessPasses (.write value dst offset) := by
  rcases p.run_access at_ins dst rfl with ⟨ret, p', returned, status, regs⟩
  unfold AccessKept AccessPasses
  simp only [stores_iff]
  constructor
  · rintro ⟨ret', p'', returned', kept, -⟩
    obtain ⟨rfl, rfl⟩ := Prod.mk.inj (Except.ok.inj (returned.symm.trans returned'))
    by_cases area : p.vm.getVmaByNum (p.vm.symrg dst).vmaid = none
    · exact .inl area
    · exact .inr (kept.mp (status.mpr area)).2
  · intro passes
    refine ⟨ret, p', returned, status.trans ?_, fun _ => regs⟩
    exact ⟨fun area => ⟨area, passes.resolve_left area⟩, fun stored => stored.1⟩

/-- The contract of an access holds exactly where the VMA of the region is missing, or the
access reaches RAM and, for READ, the register has the byte already. -/
theorem accessKept_iff {p : Pcb} {a : Access} (at_ins : p.Fetches a.ins) :
    p.AccessKept a ↔ p.AccessPasses a := by
  cases a with
  | read src offset dst => exact readKept_iff at_ins
  | write value dst offset => exact writeKept_iff at_ins

/-- The process of `start` with page 1 in frame 0 of a RAM that is full of `byte`. -/
def mapped (byte : BitVec 8) (code : List Inst) : Pcb :=
  { start code with
    caller.mm := (Mm.init.setPte 1 (pteSetFpn 0 0)).enlistPgnNode 1
    caller.mram := ⟨fun _ => byte, 512, true, [1]⟩ }

/-- A byte 0 is read from symbol 5 for a register that is 0. -/
theorem accessKept_iff_mapped :
    (mapped 0 [(Access.read 5 10 3).ins]).AccessKept (.read 5 10 3) := by
  have at_ins : (mapped 0 [(Access.read 5 10 3).ins]).Fetches (Access.read 5 10 3).ins := rfl
  refine (accessKept_iff at_ins).mpr (.inr ⟨?_, ?_⟩)
  · decide +kernel
  · decide +kernel

/-- A byte 7 that is read successfully does not reach the register. -/
theorem byte_not_delivered : ¬ ∀ (p : Pcb) (a : Access), p.Fetches a.ins → p.AccessKept a := by
  intro claim
  let p := mapped 7 [(Access.read 5 10 3).ins]
  rcases claim p (.read 5 10 3) rfl with ⟨ret, p', returned, -, stored, -⟩
  rcases p.run_access rfl 5 rfl with ⟨ret', p'', returned', -, regs⟩
  obtain ⟨-, rfl⟩ := Prod.mk.inj (Except.ok.inj (returned.symm.trans returned'))
  have read : p.Reads 5 10 7 := ⟨by decide +kernel, by decide +kernel⟩
  have set := stored 7 read
  rw [regs] at set
  exact absurd ((regs_eq_set p.regs 3 _).mp set) (by decide +kernel)

end Pcb
end OsSim
