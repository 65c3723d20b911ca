import OsSim.Cpu
import OsSim.LiveRegions
import OsSim.ReadYourWrites

/-! Which instructions stay inside the symbol table. __free checks its operand, __read and
__write let every id through to a dereference, and __alloc stores without a check: an id out
of the table is refused there only where the request fails for another reason. -/
namespace OsSim

/-- The id of a symbol that an instruction names. -/
def Inst.regIndex (ins : Inst) : Option (BitVec 32) :=
  match ins.opcode with
  | .calc => none
  | .alloc | .malloc | .write => some ins.arg1
  | .free | .read => some ins.arg0

namespace Vmm

/-- None of the regions that the walk of get_free_vmrg_area comes to has room. -/
def Fitless (vmaid : Int) (size : BitVec 64) : List VmRg → Prop
  | [] => True
  | rgit :: rest =>
      rgit.vmaid = vmaid → ¬ rgit.rgStart + size ≤ rgit.rgEnd ∧ Fitless vmaid size rest

section Walk
variable {vmaid : Int} {size : BitVec 64} {list : List VmRg} {newrg : VmRg}

theorem walk_fitless {n : Nat} (enough : list.length < n) (fitless : Fitless vmaid size list) :
    walk vmaid size n list newrg = some (newrg, list) := by
  induction list generalizing n with
  | nil =>
      cases n with
      | zero => cases enough
      | succ n => rfl
  | cons rgit rest ih =>
      cases n with
      | zero => cases enough
      | succ n =>
          by_cases own : rgit.vmaid = vmaid
          · have later := ih (Nat.lt_of_succ_lt_succ enough) (fitless own).2
            rw [walk_skip own (fitless own).1, later]
            rfl
          · exact walk_other own

/-- A walk goes on until nothing has room, wherever it starts. -/
theorem walk_leaves_fitless {n : Nat} {newrg' : VmRg} {list' : List VmRg}
    (h : walk vmaid size n list newrg = some (newrg', list')) : Fitless vmaid size list' := by
  refine walk_induction (P := fun _ _ _ list' => Fitless vmaid size list') ?_ ?_ ?_ ?_ ?_ ?_ h
  · exact fun _ => trivial
  · exact fun _ _ _ foreign own => absurd own foreign
  · exact fun _ _ _ _ _ _ no_room later _ => ⟨no_room, later⟩
  · exact fun _ _ _ _ _ _ _ later => later
  · exact fun _ _ _ _ _ _ _ later => later
  · exact fun _ _ _ _ _ later => later

end Walk

theorem length_lt_rounds (list : List VmRg) : list.length < rounds list := by
  rw [rounds]
  omega

section Search
variable {vm : Vmm} {vmaid : Int} {size : BitVec 32} {newrg : VmRg} {vma : VmArea}

theorem getFreeVmrgArea_fitless (area : vm.getVmaByNum vmaid = some vma)
    (fitless : Fitless vmaid (size.signExtend 64) vma.vmFreergList) :
    ∃ newrg', vm.getFreeVmrgArea vmaid size newrg = .ok (false, newrg', vm) := by
  cases list : vma.vmFreergList with
  | nil => exact ⟨newrg, getFreeVmrgArea_nil area list newrg⟩
  | cons rgit rest =>
      have enough := length_lt_rounds (rgit :: rest)
      refine ⟨{ newrg with rgStart := -1, rgEnd := -1 }, ?_⟩
      rw [getFreeVmrgArea_cons area list]
      generalize rounds (rgit :: rest) = n at enough ⊢
      rw [list] at fitless
      rw [walk_fitless enough fitless, ← list]
      change Except.ok (false, _, vm.setFreergList vmaid vma.vmFreergList) = _
      rw [setFreergList_same area]

/-- A search that comes back with nothing and without a change met no room. -/
theorem fitless_of_unchanged {newrg' : VmRg} (area : vm.getVmaByNum vmaid = some vma)
    (h : vm.getFreeVmrgArea vmaid size newrg = .ok (false, newrg', vm)) :
    Fitless vmaid (size.signExtend 64) vma.vmFreergList := by
  cases list : vma.vmFreergList with
  | nil => trivial
  | cons rgit rest =>
      rw [getFreeVmrgArea_cons area list] at h
      generalize rounds (rgit :: rest) = n at h
      cases walks : walk vmaid (size.signExtend 64) n (rgit :: rest)
          { newrg with rgStart := -1, rgEnd := -1 } with
      | none =>
          rw [walks] at h
          cases h
      | some r =>
          rw [walks] at h
          have same : vm.setFreergList vmaid r.2 = vm :=
            (Prod.mk.inj (Prod.mk.inj (Except.ok.inj h)).2).2
          have after := getVmaByNum_setFreergList area r.2
          rw [same, area] at after
          have left : vma.vmFreergList = r.2 := congrArg VmArea.vmFreergList (Option.some.inj after)
          rw [← list, left]
          exact walk_leaves_fitless walks

theorem getFreeVmrgArea_fault {f : Fault} (h : vm.getFreeVmrgArea vmaid size newrg = .error f) :
    f = .nullVma ∨ f = .unending := by
  cases area : vm.getVmaByNum vmaid with
  | none =>
      rw [getFreeVmrgArea, area] at h
      exact .inl (Except.error.inj h).symm
  | some vma =>
      cases list : vma.vmFreergList with
      | nil =>
          rw [getFreeVmrgArea_nil area list] at h
          cases h
      | cons rgit rest =>
          rw [getFreeVmrgArea_cons area list] at h
          generalize walk _ _ _ _ _ = r at h
          cases r with
          | none => exact .inr (Except.error.inj h).symm
          | some r => cases h

end Search

/-- The area has no room for the request and inc_vma_limit refuses to grow it. -/
structure AllocRefused (vm : Vmm) (vmemsz : BitVec 32) (vmaid : Int) (size : BitVec 32) : Prop where
  fitless : ∃ vma, vm.getVmaByNum vmaid = some vma ∧
    Fitless vmaid (size.signExtend 64) vma.vmFreergList
  limited : vm.mayGrow vmemsz vmaid size = false

section Alloc
variable {vm : Vmm} {vmemsz : BitVec 32} {vmaid rgid : Int} {size : BitVec 32}

/-- __alloc for an id that is not of the table leaves all as it was only where it would not
have stored anything. -/
theorem alloc_outside_iff (outside : symIndex rgid = none) :
    vm.alloc vmemsz vmaid rgid size = .ok (false, vm) ↔
      ¬ 0 < size.toInt ∨ vm.AllocRefused vmemsz vmaid size := by
  constructor
  · intro returned
    have spec := vm.alloc_spec vmemsz vmaid rgid size
    generalize vm.alloc vmemsz vmaid rgid size = r at spec returned
    cases spec with
    | nothing nonpos => exact .inl nonpos
    | fault => cases returned
    | found =>
        rw [storeSymrg, outside] at returned
        cases returned
    | grown => cases returned
    | @refused newrg vm' _ search limited =>
        obtain ⟨-, rfl⟩ := Prod.mk.inj (Except.ok.inj returned)
        cases area : vm'.getVmaByNum vmaid with
        | none =>
            rw [getFreeVmrgArea, area] at search
            cases search
        | some vma => exact .inr ⟨⟨vma, area, fitless_of_unchanged area search⟩, limited⟩
  · intro refused
    by_cases pos : 0 < size.toInt
    · rcases refused.resolve_left (not_not.mpr pos) with ⟨⟨vma, area, fitless⟩, limited⟩
      rcases getFreeVmrgArea_fitless area fitless with ⟨newrg, search⟩
      rw [alloc_not_found pos search, limited]
      rfl
    · exact alloc_nonpos pos

theorem alloc_outside_fails (outside : symIndex rgid = none) {vm' : Vmm} :
    vm.alloc vmemsz vmaid rgid size ≠ .ok (true, vm') := by
  intro returned
  have spec := vm.alloc_spec vmemsz vmaid rgid size
  generalize vm.alloc vmemsz vmaid rgid size = r at spec returned
  cases spec with
  | nothing => cases returned
  | fault => cases returned
  | found =>
      rw [storeSymrg, outside] at returned
      cases returned
  | grown => cases returned
  | refused => cases returned

theorem alloc_fault {i : Fin pagingMaxSymtblSz} (inside : symIndex rgid = some i) {f : Fault}
    (h : vm.alloc vmemsz vmaid rgid size = .error f) : f ≠ .symtblRange ∧ f ≠ .nullSymrg := by
  have spec := vm.alloc_spec vmemsz vmaid rgid size
  generalize vm.alloc vmemsz vmaid rgid size = r at spec h
  cases spec with
  | nothing => cases h
  | fault _ search =>
      obtain rfl := Except.error.inj h
      rcases getFreeVmrgArea_fault search with rfl | rfl
      · exact ⟨by decide, by decide⟩
      · exact ⟨by decide, by decide⟩
  | found =>
      rw [storeSymrg, inside] at h
      cases h
  | grown =>
      obtain rfl := Except.error.inj h
      exact ⟨by decide, by decide⟩
  | refused => cases h

theorem free_outside (outside : symIndex rgid = none) : vm.free rgid = .ok (false, vm) := by
  rw [free, outside]

theorem free_fault {f : Fault} (h : vm.free rgid = .error f) : f = .nullVma := by
  unfold free at h
  split at h
  · cases h
  · rename_i i _
    dsimp only at h
    split at h
    · cases h
    · cases enlisted : vm.enlistVmFreergList (vm.symrg i) with
      | error g =>
          rw [enlisted] at h
          obtain rfl := Except.error.inj h
          unfold enlistVmFreergList at enlisted
          split at enlisted
          · exact (Except.error.inj enlisted).symm
          · split at enlisted
            · cases enlisted
            · cases enlisted
      | ok between =>
          rw [enlisted] at h
          cases h

end Alloc
end Vmm

namespace Pcb

/-- The call returns a status that is not 0 and leaves the memory of the process alone. -/
def Refuses (p : Pcb) (r : Except Fault (Int × Pcb)) : Prop :=
  ∃ ret p', r = .ok (ret, p') ∧ ret ≠ 0 ∧ p'.vm = p.vm ∧ p'.caller = p.caller

/-- The call neither leaves the symbol table nor follows the NULL of get_symrg_byid. -/
def InSymtbl (r : Except Fault (Int × Pcb)) : Prop :=
  ∀ f, r = .error f → f ≠ .symtblRange ∧ f ≠ .nullSymrg

/-- What every instruction should be: safe, and refused if its id is not of the table. -/
def SymtblSafe (p : Pcb) (ins : Inst) : Prop :=
  InSymtbl p.run ∧ ∀ id, ins.regIndex = some id → pagingMaxSymtblSz ≤ id.toNat → p.Refuses p.run

/-- The id is of the table, or the instruction has another reason to be refused. -/
def SymtblChecked (p : Pcb) (ins : Inst) : Prop :=
  ∀ id, ins.regIndex = some id → pagingMaxSymtblSz ≤ id.toNat →
    match ins.opcode with
    | .calc | .free => True
    | .alloc => ¬ 0 < ins.arg0.toInt ∨ p.vm.AllocRefused p.vmemsz 0 ins.arg0
    | .malloc => ¬ 0 < ins.arg0.toInt ∨ p.vm.AllocRefused p.vmemsz 1 ins.arg0
    | .read | .write => False

theorem Refuses.inSymtbl {p : Pcb} {r : Except Fault (Int × Pcb)} (h : p.Refuses r) :
    InSymtbl r := by
  rcases h with ⟨ret, p', rfl, -⟩
  intro f fault
  cases fault

section Calls
variable (p : Pcb) {id : BitVec 32}

theorem alloc_refuses_iff (outside : pagingMaxSymtblSz ≤ id.toNat) (vmaid : Int)
    (size : BitVec 32) : p.Refuses (p.alloc vmaid id.toInt size) ↔
      ¬ 0 < size.toInt ∨ p.vm.AllocRefused p.vmemsz vmaid size := by
  have past := symIndex_outside outside
  rw [← Vmm.alloc_outside_iff past, alloc]
  constructor
  · rintro ⟨ret, p', returned, failed, vm, -⟩
    cases result : p.vm.alloc p.vmemsz vmaid id.toInt size with
    | error f =>
        rw [result] at returned
        cases returned
    | ok r =>
        rcases r with ⟨ok, vm'⟩
        cases ok with
        | true => exact absurd result (Vmm.alloc_outside_fails past)
        | false =>
            rw [result] at returned
            obtain ⟨-, rfl⟩ := Prod.mk.inj (Except.ok.inj returned)
            obtain rfl : vm' = p.vm := vm
            rfl
  · intro result
    rw [result]
    exact ⟨-1, p, rfl, by decide, rfl, rfl⟩

theorem alloc_inSymtbl (inside : id.toNat < pagingMaxSymtblSz) (vmaid : Int) (size : BitVec 32) :
    InSymtbl (p.alloc vmaid id.toInt size) := by
  intro f fault
  unfold alloc at fault
  cases result : p.vm.alloc p.vmemsz vmaid id.toInt size with
  | error g =>
      rw [result] at fault
      obtain rfl := Except.error.inj fault
      exact Vmm.alloc_fault (symIndex_inside inside) result
  | ok r =>
      rw [result] at fault
      cases fault

theorem pgfreeData_refuses (outside : pagingMaxSymtblSz ≤ id.toNat) :
    p.Refuses (p.pgfreeData id) := by
  rw [pgfreeData, Vmm.free_outside (symIndex_outside outside)]
  exact ⟨-1, p, rfl, by decide, rfl, rfl⟩

theorem pgfreeData_inSymtbl (id : BitVec 32) : InSymtbl (p.pgfreeData id) := by
  intro f fault
  unfold pgfreeData at fault
  cases result : p.vm.free id.toInt with
  | error g =>
      rw [result] at fault
      obtain rfl := Except.error.inj fault
      obtain rfl := Vmm.free_fault result
      exact ⟨by decide, by decide⟩
  | ok r =>
      rw [result] at fault
      cases fault

theorem pgread_inSymtbl (inside : id.toNat < pagingMaxSymtblSz) (offset destination : BitVec 32) :
    InSymtbl (p.pgread id offset destination) := by
  intro f fault
  unfold pgread at fault
  rcases p.read_returns offset (symIndex_inside inside) with ⟨r, result⟩
  rw [result] at fault
  cases fault

theorem pgwrite_inSymtbl (data : BitVec 8) (inside : id.toNat < pagingMaxSymtblSz)
    (offset : BitVec 32) : InSymtbl (p.pgwrite data id offset) := by
  intro f fault
  rcases p.write_returns offset (symIndex_inside inside) data with ⟨r, result⟩
  rw [pgwrite, result] at fault
  cases fault

theorem pgread_not_inSymtbl (outside : pagingMaxSymtblSz ≤ id.toNat)
    (offset destination : BitVec 32) : ¬ InSymtbl (p.pgread id offset destination) := by
  rcases p.read_outside offset (symIndex_outside outside) with ⟨f, fault, which⟩
  intro safe
  have avoided := safe f (by rw [pgread, fault]; rfl)
  exact which.elim avoided.1 avoided.2

theorem pgwrite_not_inSymtbl (data : BitVec 8) (outside : pagingMaxSymtblSz ≤ id.toNat)
    (offset : BitVec 32) : ¬ InSymtbl (p.pgwrite data id offset) := by
  rcases p.write_outside offset (symIndex_outside outside) data with ⟨f, fault, which⟩
  intro safe
  have avoided := safe f fault
  exact which.elim avoided.1 avoided.2

end Calls

/-- The two halves of the promise, from what the call does on either side of the bound. -/
theorem safe_iff {p : Pcb} {r : Except Fault (Int × Pcb)} {id : BitVec 32} {checked : Prop}
    (inside : id.toNat < pagingMaxSymtblSz → InSymtbl r)
    (outside : pagingMaxSymtblSz ≤ id.toNat → (p.Refuses r ↔ checked)) :
    (InSymtbl r ∧ ∀ id', some id = some id' → pagingMaxSymtblSz ≤ id'.toNat → p.Refuses r) ↔
      ∀ id', some id = some id' → pagingMaxSymtblSz ≤ id'.toNat → checked := by
  constructor
  · rintro ⟨-, refuses⟩ id' same past
    obtain rfl := Option.some.inj same
    exact (outside past).mp (refuses id rfl past)
  · intro all
    by_cases past : pagingMaxSymtblSz ≤ id.toNat
    · have refuses := (outside past).mpr (all id rfl past)
      exact ⟨refuses.inSymtbl, fun _ _ _ => refuses⟩
    · refine ⟨inside (not_le.mp past), ?_⟩
      intro id' same past'
      exact absurd (Option.some.inj same ▸ past') past

theorem not_refuses {p : Pcb} {r : Except Fault (Int × Pcb)} (unsafe_call : ¬ InSymtbl r) :
    p.Refuses r ↔ False :=
  iff_false_intro fun refuses => unsafe_call refuses.inSymtbl

/-- An instruction is safe exactly where its id is of the table, or it is FREE, or it is an
allocation that fails before it stores. -/
theorem symtblSafe_iff {p : Pcb} {ins : Inst} (at_ins : p.Fetches ins) :
    p.SymtblSafe ins ↔ p.SymtblChecked ins := by
  let q : Pcb := { p with pc := p.pc + 1 }
  have refuses : ∀ r, p.Refuses r ↔ q.Refuses r := fun _ => Iff.rfl
  have checked : p.SymtblChecked ins ↔ q.SymtblChecked ins := Iff.rfl
  rw [SymtblSafe, run_eq at_ins, refuses, checked]
  change InSymtbl (q.exec ins) ∧ _ ↔ _
  rcases ins with ⟨opcode, arg0, arg1, arg2⟩
  cases opcode with
  | «calc» =>
      refine ⟨fun _ id named => (nomatch named), fun _ => ⟨fun f fault => ?_, fun id named => ?_⟩⟩
      · cases fault
      · cases named
  | alloc =>
      exact safe_iff (fun inside => q.alloc_inSymtbl inside 0 arg0)
        fun outside => q.alloc_refuses_iff outside 0 arg0
  | malloc =>
      exact safe_iff (fun inside => q.alloc_inSymtbl inside 1 arg0)
        fun outside => q.alloc_refuses_iff outside 1 arg0
  | free =>
      exact safe_iff (fun _ => q.pgfreeData_inSymtbl arg0)
        fun outside => iff_true_intro (q.pgfreeData_refuses outside)
  | read =>
      exact safe_iff (fun inside => q.pgread_inSymtbl inside arg1 arg2)
        fun outside => not_refuses (q.pgread_not_inSymtbl outside arg1 arg2)
  | write =>
      exact safe_iff (fun inside => q.pgwrite_inSymtbl (arg0.setWidth 8) inside arg2)
        fun outside => not_refuses (q.pgwrite_not_inSymtbl (arg0.setWidth 8) outside arg2)

/-- A process at the start of its code, with two areas and an empty page table. -/
def start (code : List Inst) : Pcb where
  code := code
  regs := Vector.replicate 10 0
  pc := 0
  caller := Caller.fresh Caller.twoFrames Caller.twoFrames
  vm := Vmm.twoAreas
  vmemsz := 1024

/-- 300 bytes do not fit the 200 at the front of the list, and the area ends where the
memory of the process does. -/
theorem symtblSafe_iff_refused :
    (start [⟨.alloc, 300, 40, 0⟩]).SymtblSafe ⟨.alloc, 300, 40, 0⟩ := by
  have at_ins : (start [⟨.alloc, 300, 40, 0⟩]).Fetches ⟨.alloc, 300, 40, 0⟩ := rfl
  refine (symtblSafe_iff at_ins).mpr fun id _ _ => .inr ⟨⟨_, rfl, ?_⟩, ?_⟩
  · exact fun _ => ⟨by decide, fun other => absurd other (by decide)⟩
  · decide +kernel

/-- The id one past the table passes the check of get_symrg_byid. -/
theorem read_past_table : ¬ ∀ (p : Pcb) (ins : Inst), p.Fetches ins → p.SymtblSafe ins := by
  intro claim
  have safe := (claim (start [⟨.read, 30, 0, 0⟩]) ⟨.read, 30, 0, 0⟩ rfl).1 .symtblRange rfl
  exact safe.1 rfl

end Pcb
end OsSim
