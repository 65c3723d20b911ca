import Mathlib.Data.List.Basic
import OsSim.Pte

/-! The areas and regions of mm-vm.c: the symbol table, the free lists, and __alloc and
__free. An access the C code makes through a NULL pointer or past the table is a fault. -/
namespace OsSim

def pagingMaxSymtblSz : Nat := 30

instance : NeZero pagingMaxSymtblSz := ⟨by decide⟩

/-- What ends a call before it returns. -/
inductive Fault where
  | nullVma
  | nullSymrg
  | symtblRange
  | nullIncLimitRet
  | unending
  deriving DecidableEq

/-- `struct vm_rg_struct` without its link. -/
structure VmRg where
  vmaid : Int
  rgStart : BitVec 64
  rgEnd : BitVec 64
  deriving DecidableEq

structure VmArea where
  vmId : BitVec 64
  vmStart : BitVec 64
  vmEnd : BitVec 64
  vmFreergList : List VmRg
  deriving DecidableEq

/-- The part of `struct mm_struct` that paging does not use; no areas is a NULL `mmap`. -/
structure Vmm where
  mmap : List VmArea
  symrgtbl : Vector VmRg pagingMaxSymtblSz
  deriving DecidableEq

theorem symrg_inside {rgid : Int} (inside : 0 ≤ rgid ∧ rgid < pagingMaxSymtblSz) :
    rgid.toNat < pagingMaxSymtblSz := by omega

/-- The entries that `symrgtbl[rgid]` may be. -/
def symIndex (rgid : Int) : Option (Fin pagingMaxSymtblSz) :=
  if inside : 0 ≤ rgid ∧ rgid < pagingMaxSymtblSz then some ⟨rgid.toNat, symrg_inside inside⟩
  else none

namespace Vmm

def symrg (vm : Vmm) (i : Fin pagingMaxSymtblSz) : VmRg := vm.symrgtbl.get i

def setSymrg (vm : Vmm) (i : Fin pagingMaxSymtblSz) (rg : VmRg) : Vmm :=
  { vm with symrgtbl := vm.symrgtbl.set i.val rg i.isLt }

/-- get_vma_by_num: its walk along the links ends at once for a negative number. -/
def getVmaByNum (vm : Vmm) (vmaid : Int) : Option VmArea := vm.mmap[vmaid.toNat]?

def setFreergList (vm : Vmm) (vmaid : Int) (list : List VmRg) : Vmm :=
  { vm with mmap := vm.mmap.modify vmaid.toNat fun vma => { vma with vmFreergList := list } }

/-- The walk of get_free_vmrg_area along a free list, for so many rounds. It does not stop
at a region that fits: it cuts pieces off it as long as they fit, and keeps the last one. A
region used up takes over the range of the next one, but not its number. -/
def walk (vmaid : Int) (size : BitVec 64) : Nat → List VmRg → VmRg → Option (VmRg × List VmRg)
  | 0, _, _ => none
  | _ + 1, [], newrg => some (newrg, [])
  | rounds + 1, rgit :: rest, newrg =>
      if rgit.vmaid ≠ vmaid then some (newrg, rgit :: rest)
      else if rgit.rgStart + size ≤ rgit.rgEnd then
        let newrg := { newrg with rgStart := rgit.rgStart, rgEnd := rgit.rgStart + size }
        if rgit.rgStart + size < rgit.rgEnd then
          walk vmaid size rounds ({ rgit with rgStart := rgit.rgStart + size } :: rest) newrg
        else
          match rest with
          | nextrg :: rest =>
              walk vmaid size rounds
                ({ rgit with rgStart := nextrg.rgStart, rgEnd := nextrg.rgEnd } :: rest) newrg
          | [] => walk vmaid size rounds [{ rgit with rgStart := rgit.rgEnd }] newrg
      else (walk vmaid size rounds rest newrg).map fun r => (r.1, rgit :: r.2)

/-- More rounds than there are places for the walk to be in: it would go on for ever. -/
@[irreducible] def rounds (list : List VmRg) : Nat := 2 ^ 64 * (list.length + 2)

/-- What get_free_vmrg_area returns and leaves behind after its walk. -/
def afterWalk (vm : Vmm) (vmaid : Int) :
    Option (VmRg × List VmRg) → Except Fault (Bool × VmRg × Vmm)
  | none => .error .unending
  | some (newrg, list) => .ok (newrg.rgStart ≠ -1, newrg, vm.setFreergList vmaid list)

/-- get_free_vmrg_area: whether it returned 0, and the region it found. -/
def getFreeVmrgArea (vm : Vmm) (vmaid : Int) (size : BitVec 32) (newrg : VmRg) :
    Except Fault (Bool × VmRg × Vmm) :=
  match vm.getVmaByNum vmaid with
  | none => .error .nullVma
  | some curVma =>
      match curVma.vmFreergList with
      | [] => .ok (false, newrg, vm)
      | rgit :: rest =>
          let newrg := { newrg with rgStart := -1, rgEnd := -1 }
          vm.afterWalk vmaid
            (walk vmaid (size.signExtend 64) (rounds (rgit :: rest)) (rgit :: rest) newrg)

/-- `PAGING_PAGE_ALIGNSZ` on an int: a division that rounds towards zero. -/
def pagingPageAlignsz (sz : BitVec 32) : BitVec 32 := (sz + 256 - 1).sdiv 256 * 256

/-- validate_overlap_vm_area, whether it returned 0. -/
def validateOverlapVmArea (vm : Vmm) (vmemsz : BitVec 32) (vmaid : Int)
    (vmastart vmaend : BitVec 32) : Bool :=
  ¬ vmaend.toInt < 0 ∧ ¬ vmemsz < vmaend ∧ ∀ cur ∈ vm.mmap,
    ¬ (cur.vmId ≠ BitVec.ofInt 64 vmaid ∧
      (cur.vmStart ≤ vmastart.signExtend 64 ∧ vmastart.signExtend 64 < cur.vmEnd ∨
        cur.vmStart < vmaend.signExtend 64 ∧ vmaend.signExtend 64 ≤ cur.vmEnd))

/-- The check that inc_vma_limit makes before it moves the end of an area. -/
def mayInc (vm : Vmm) (vmemsz : BitVec 32) (vmaid : Int) (curVma : VmArea) (incAmt : BitVec 32) :
    Bool :=
  vm.validateOverlapVmArea vmemsz vmaid (curVma.vmEnd.setWidth 32)
    ((curVma.vmEnd + (if vmaid = 1 then -incAmt else incAmt).signExtend 64).setWidth 32)

/-- inc_vma_limit; `incLimitRet` is what its pointer points to, `none` a NULL pointer. -/
def incVmaLimit (vm : Vmm) (vmemsz : BitVec 32) (vmaid : Int) (incSz : BitVec 32)
    (incLimitRet : Option (BitVec 32)) : Except Fault (Bool × Option (BitVec 32) × Vmm) :=
  match vm.getVmaByNum vmaid with
  | none => .ok (false, incLimitRet, vm)
  | some curVma =>
      let incAmt := pagingPageAlignsz incSz
      if vm.mayInc vmemsz vmaid curVma incAmt then
        let vm := { vm with mmap := vm.mmap.modify vmaid.toNat fun vma => { vma with
          vmEnd := if vmaid = 1 then vma.vmEnd - incAmt.signExtend 64
            else if vmaid = 0 then vma.vmEnd + incAmt.signExtend 64 else vma.vmEnd } }
        match incLimitRet with
        | none => .error .nullIncLimitRet
        | some _ => .ok (true, some incAmt, vm)
      else .ok (false, incLimitRet, vm)

/-- By how much __alloc asks to expand the area. -/
def expandSize (vmaid : Int) (remainingSize alignedSize : BitVec 32) : BitVec 32 :=
  let expandSize := if alignedSize.toInt < remainingSize.toInt then alignedSize else 256
  if vmaid = 1 then -expandSize else expandSize

def storeSymrg (vm : Vmm) (rgid : Int) (rg : VmRg) : Except Fault Vmm :=
  match symIndex rgid with
  | none => .error .symtblRange
  | some i => .ok (vm.setSymrg i rg)

/-- The loop of __alloc, with a bound on its rounds: each takes at least one byte off. -/
def allocLoop (vmemsz : BitVec 32) (vmaid rgid : Int) (alignedSize : BitVec 32) :
    Nat → BitVec 32 → VmRg → Vmm → Except Fault (Bool × Vmm)
  | 0, _, _, vm => .ok (false, vm)
  | rounds + 1, remainingSize, rgnode, vm =>
      if 0 < remainingSize.toInt then do
        match ← vm.getFreeVmrgArea vmaid remainingSize rgnode with
        | (true, rgnode, vm) => return (true, ← vm.storeSymrg rgid rgnode)
        | (false, rgnode, vm) =>
            let expand := expandSize vmaid remainingSize alignedSize
            match ← vm.incVmaLimit vmemsz vmaid expand none with
            | (false, _, vm) => return (false, vm)
            | (true, _, vm) =>
                allocLoop vmemsz vmaid rgid alignedSize rounds
                  (remainingSize - if expand.toInt < 0 then -expand else expand) rgnode vm
      else .ok (false, vm)

/-- `__alloc`; `rgnode` is not initialised but for its number. -/
def alloc (vm : Vmm) (vmemsz : BitVec 32) (vmaid rgid : Int) (size : BitVec 32) :
    Except Fault (Bool × Vmm) :=
  if 0 < size.toInt then
    allocLoop vmemsz vmaid rgid (pagingPageAlignsz size) size.toNat size ⟨vmaid, 0, 0⟩ vm
  else .ok (false, vm)

/-- enlist_vm_freerg_list, which always uses the list of the first area; its result is not
looked at. -/
def enlistVmFreergList (vm : Vmm) (rgElmt : VmRg) : Except Fault Vmm :=
  match vm.mmap with
  | [] => .error .nullVma
  | vma :: rest =>
      if rgElmt.rgEnd ≤ rgElmt.rgStart then .ok vm
      else .ok { vm with
        mmap := { vma with vmFreergList := rgElmt :: vma.vmFreergList } :: rest }

/-- `__free`. -/
def free (vm : Vmm) (rgid : Int) : Except Fault (Bool × Vmm) :=
  match symIndex rgid with
  | none => .ok (false, vm)
  | some i => do
      let rgnode := vm.symrg i
      if rgnode.vmaid < 0 ∨ 1 < rgnode.vmaid then return (false, vm)
      let vm ← vm.enlistVmFreergList rgnode
      return (true, vm.setSymrg i ⟨-1, 0, 0⟩)

/-! One round of the walk, branch by branch. -/
section Walk
variable {vmaid : Int} {size : BitVec 64} {n : Nat} {rgit nextrg newrg : VmRg} {rest : List VmRg}

theorem walk_other (other : rgit.vmaid ≠ vmaid) :
    walk vmaid size (n + 1) (rgit :: rest) newrg = some (newrg, rgit :: rest) :=
  if_pos other

variable (own : rgit.vmaid = vmaid)
include own

theorem walk_skip (small : ¬ rgit.rgStart + size ≤ rgit.rgEnd) :
    walk vmaid size (n + 1) (rgit :: rest) newrg =
      (walk vmaid size n rest newrg).map fun r => (r.1, rgit :: r.2) := by
  rw [walk.eq_def vmaid size (n + 1)]
  dsimp only
  rw [if_neg (not_not.mpr own), if_neg small]

variable (fits : rgit.rgStart + size ≤ rgit.rgEnd)
include fits

theorem walk_leaves (leaves : rgit.rgStart + size < rgit.rgEnd) :
    walk vmaid size (n + 1) (rgit :: rest) newrg =
      walk vmaid size n (⟨rgit.vmaid, rgit.rgStart + size, rgit.rgEnd⟩ :: rest)
        ⟨newrg.vmaid, rgit.rgStart, rgit.rgStart + size⟩ := by
  rw [walk.eq_def]
  dsimp only
  rw [if_neg (not_not.mpr own), if_pos fits, if_pos leaves]

theorem walk_next (all : ¬ rgit.rgStart + size < rgit.rgEnd) :
    walk vmaid size (n + 1) (rgit :: nextrg :: rest) newrg =
      walk vmaid size n (⟨rgit.vmaid, nextrg.rgStart, nextrg.rgEnd⟩ :: rest)
        ⟨newrg.vmaid, rgit.rgStart, rgit.rgStart + size⟩ := by
  rw [walk.eq_def]
  dsimp only
  rw [if_neg (not_not.mpr own), if_pos fits, if_neg all]

theorem walk_end (all : ¬ rgit.rgStart + size < rgit.rgEnd) :
    walk vmaid size (n + 1) [rgit] newrg =
      walk vmaid size n [⟨rgit.vmaid, rgit.rgEnd, rgit.rgEnd⟩]
        ⟨newrg.vmaid, rgit.rgStart, rgit.rgStart + size⟩ := by
  rw [walk.eq_def]
  dsimp only
  rw [if_neg (not_not.mpr own), if_pos fits, if_neg all]

end Walk

/-- The rule for what a walk that ends has done: one premise for each branch of a round. -/
theorem walk_induction {vmaid : Int} {size : BitVec 64}
    {P : List VmRg → VmRg → VmRg → List VmRg → Prop} (stop : ∀ newrg, P [] newrg newrg [])
    (other : ∀ rgit rest newrg, rgit.vmaid ≠ vmaid →
      P (rgit :: rest) newrg newrg (rgit :: rest))
    (skip : ∀ rgit rest newrg newrg' list', rgit.vmaid = vmaid →
      ¬ rgit.rgStart + size ≤ rgit.rgEnd → P rest newrg newrg' list' →
      P (rgit :: rest) newrg newrg' (rgit :: list'))
    (leaves : ∀ rgit rest newrg newrg' list', rgit.vmaid = vmaid →
      rgit.rgStart + size < rgit.rgEnd →
      P (⟨rgit.vmaid, rgit.rgStart + size, rgit.rgEnd⟩ :: rest)
        ⟨newrg.vmaid, rgit.rgStart, rgit.rgStart + size⟩ newrg' list' →
      P (rgit :: rest) newrg newrg' list')
    (next : ∀ rgit nextrg rest newrg newrg' list', rgit.vmaid = vmaid →
      P (⟨rgit.vmaid, nextrg.rgStart, nextrg.rgEnd⟩ :: rest)
        ⟨newrg.vmaid, rgit.rgStart, rgit.rgStart + size⟩ newrg' list' →
      P (rgit :: nextrg :: rest) newrg newrg' list')
    (last : ∀ rgit newrg newrg' list', rgit.vmaid = vmaid →
      P [⟨rgit.vmaid, rgit.rgEnd, rgit.rgEnd⟩]
        ⟨newrg.vmaid, rgit.rgStart, rgit.rgStart + size⟩ newrg' list' →
      P [rgit] newrg newrg' list')
    {n : Nat} {list list' : List VmRg} {newrg newrg' : VmRg}
    (h : walk vmaid size n list newrg = some (newrg', list')) : P list newrg newrg' list' := by
  induction n generalizing list newrg newrg' list' with
  | zero => cases h
  | succ n ih =>
      cases list with
      | nil =>
          obtain ⟨rfl, rfl⟩ := Prod.mk.inj (Option.some.inj h)
          exact stop newrg
      | cons rgit rest =>
          by_cases own : rgit.vmaid = vmaid
          · by_cases room : rgit.rgStart + size ≤ rgit.rgEnd
            · by_cases some_left : rgit.rgStart + size < rgit.rgEnd
              · rw [walk_leaves own room some_left] at h
                exact leaves _ _ _ _ _ own some_left (ih h)
              · cases rest with
                | nil =>
                    rw [walk_end own room some_left] at h
                    exact last _ _ _ _ own (ih h)
                | cons nextrg rest =>
                    rw [walk_next own room some_left] at h
                    exact next _ _ _ _ _ _ own (ih h)
            · rw [walk_skip own room] at h
              obtain ⟨r, walks, same⟩ := Option.map_eq_some_iff.mp h
              obtain ⟨rfl, rfl⟩ := Prod.mk.inj same
              exact skip _ _ _ _ _ own room (ih walks)
          · rw [walk_other own] at h
            obtain ⟨rfl, rfl⟩ := Prod.mk.inj (Option.some.inj h)
            exact other _ _ _ own

end Vmm
end OsSim
