import OsSim.FifoResidency
import OsSim.FrameIsolation
import OsSim.ReadYourWrites

/-! What the processes on one RAM device read after a write, while they stay on pages that
are in RAM: a byte there is one process's at one 22-bit address. -/
namespace OsSim

/-- The device after a byte is written to it. -/
def Memphy.store (mp : Memphy) (addr : Nat) (data : BitVec 8) : Memphy :=
  { mp with storage := Function.update mp.storage addr data }

namespace Caller
variable {c : Caller} {pgn : Pgn} {addr : BitVec 32} {fpn : Nat}

/-- A resident page is where its entry says, and nothing is done to get it. -/
theorem pgGetpage_resident (sits : c.mm.frame pgn = some fpn) :
    c.pgGetpage pgn = (some fpn, c) := by
  obtain ⟨present, -, field⟩ := pteFrame_some sits
  rw [pgGetpage, if_pos present, field]

theorem pgGetval_resident (sits : c.mm.frame (pagingPgn addr) = some fpn) :
    c.pgGetval addr = (c.mram.read (phyaddr fpn (pagingOffst addr)), c) := by
  rw [pgGetval, pgGetpage_resident sits]

theorem pgSetval_resident (sits : c.mm.frame (pagingPgn addr) = some fpn)
    (random : c.mram.rdmflg = true) (value : BitVec 8) : c.pgSetval addr value =
      (true, { c with mram := c.mram.store (phyaddr fpn (pagingOffst addr)) value }) := by
  rw [pgSetval, pgGetpage_resident sits]
  dsimp only
  rw [Memphy.write, if_pos random]
  rfl

theorem phyaddr_lt {off maxsz : Nat} (inside : off < pagingPageSz)
    (fits : (fpn + 1) * pagingPageSz ≤ maxsz) : phyaddr fpn off < maxsz := by
  simp only [phyaddr, Nat.shiftLeft_eq, pagingPageSz] at inside fits ⊢
  omega

end Caller

theorem sameAddress_iff_mod (a b : BitVec 32) :
    SameAddress a b ↔ a.toNat % 2 ^ 22 = b.toNat % 2 ^ 22 := by
  rw [SameAddress, ← BitVec.toNat_inj, BitVec.toNat_setWidth, BitVec.toNat_setWidth,
    pagingCpuBusWidth]

namespace MemSystem
variable {ι : Type*} [DecidableEq ι]

def getval (s : MemSystem ι) (i : ι) (addr : BitVec 32) : Option (BitVec 8) × MemSystem ι :=
  let r := (s.caller i).pgGetval addr
  (r.1, s.putBack i r.2)

def setval (s : MemSystem ι) (i : ι) (addr : BitVec 32) (value : BitVec 8) : Bool × MemSystem ι :=
  let r := (s.caller i).pgSetval addr value
  (r.1, s.putBack i r.2)

/-- The resident pages of all processes sit in different frames of a random access RAM. -/
structure Placed (s : MemSystem ι) : Prop where
  random : s.mram.rdmflg = true
  single : ∀ x y fpn, s.frame x = some fpn → s.frame y = some fpn → x = y
  fits : ∀ x fpn, s.frame x = some fpn → (fpn + 1) * pagingPageSz ≤ s.mram.maxsz

section Resident
variable {s : MemSystem ι} {i : ι} {addr : BitVec 32} {fpn : Nat}

theorem putBack_caller (s : MemSystem ι) (i : ι) (mram : Memphy) :
    s.putBack i { s.caller i with mram } = { s with mram } := by
  simp [putBack, caller, Function.update_eq_self]

theorem getval_resident (sits : s.frame (i, pagingPgn addr) = some fpn) :
    (s.getval i addr).1 = s.mram.read (Caller.phyaddr fpn (pagingOffst addr)) := by
  rw [getval, Caller.pgGetval_resident (c := s.caller i) sits]
  rfl

theorem setval_resident (sits : s.frame (i, pagingPgn addr) = some fpn)
    (random : s.mram.rdmflg = true) (value : BitVec 8) : s.setval i addr value =
      (true, { s with mram := s.mram.store (Caller.phyaddr fpn (pagingOffst addr)) value }) := by
  rw [setval, Caller.pgSetval_resident (c := s.caller i) sits random, putBack_caller]
  rfl

end Resident

/-- A write to a resident page changes the one byte of RAM, and a read of a resident page
then yields it exactly if it is for the same process and the same 22 bits of address. -/
theorem memory_law {s : MemSystem ι} (placed : s.Placed) {p q : ι} {a b : BitVec 32}
    (here : (s.mm p).Resident (pagingPgn a)) (there : (s.mm q).Resident (pagingPgn b))
    (v : BitVec 8) :
    ∃ x < s.mram.maxsz, ∃ s', s.setval p a v = (true, s') ∧
      s' = { s with mram := s.mram.store x v } ∧
      (s'.getval q b).1 =
        if p = q ∧ a.toNat % 2 ^ 22 = b.toNat % 2 ^ 22 then some v else (s.getval q b).1 := by
  obtain ⟨f, sits⟩ := Option.isSome_iff_exists.mp (((s.mm p).resident_iff _).mp here)
  obtain ⟨g, holds⟩ := Option.isSome_iff_exists.mp (((s.mm q).resident_iff _).mp there)
  let x := Caller.phyaddr f (pagingOffst a)
  let s' : MemSystem ι := { s with mram := s.mram.store x v }
  refine ⟨x, Caller.phyaddr_lt (pagingOffst_lt a) (placed.fits (p, _) f sits), s',
    setval_resident sits placed.random v, rfl, ?_⟩
  have before := getval_resident (s := s) (i := q) holds
  have after := getval_resident (s := s') (i := q) holds
  rw [Memphy.read, if_pos placed.random] at before
  rw [Memphy.read, if_pos (show s'.mram.rdmflg = true from placed.random)] at after
  have stored : s'.mram.storage = Function.update s.mram.storage x v := rfl
  rw [before, after, stored, Function.update_apply, apply_ite some]
  refine if_congr ?_ rfl rfl
  rw [← sameAddress_iff_mod, SameAddress, same_address_iff]
  constructor
  · intro cell
    obtain ⟨rfl, offst⟩ := Caller.phyaddr_inj (pagingOffst_lt _) (pagingOffst_lt _) cell
    obtain ⟨process, page⟩ := Prod.mk.inj (placed.single (p, _) (q, _) _ sits holds)
    exact ⟨process, page, offst.symm⟩
  · rintro ⟨rfl, page, offst⟩
    rw [← page] at holds
    obtain rfl := Option.some.inj (holds.symm.trans sits)
    rw [← offst]

theorem twoCallers_placed : twoCallers.Placed where
  random := rfl
  single := twoCallers_isolated.single
  fits x fpn sits := by
    rw [twoCallers_frame, Option.ite_none_right_eq_some] at sits
    obtain ⟨-, rfl⟩ := And.imp_right Option.some.inj sits
    have := x.1.isLt
    change (x.1.val + 1) * 256 ≤ 512
    omega

/-- Process 0 reads its byte back under an address that is 2 ^ 22 higher. -/
theorem memory_law_twoCallers : ∃ x < 512, ∃ s', twoCallers.setval 0 5 7 = (true, s') ∧
    s' = { twoCallers with mram := twoCallers.mram.store x 7 } ∧
    (s'.getval 0 0x400005).1 = some 7 :=
  memory_law twoCallers_placed (p := 0) (q := 0) (a := 5) (b := 0x400005) (by decide) (by decide) 7

end MemSystem
end OsSim
