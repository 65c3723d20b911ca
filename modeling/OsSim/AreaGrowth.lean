import Mathlib.Order.Interval.Set.Disjoint
import OsSim.AllocContract

/-! How an area grows. The overlap check misses an area that lies inside the new range, and
never sees the heap, whose range is written the other way round; the amount for the heap is
rounded down and goes the wrong way. -/
namespace OsSim

namespace VmArea

/-- The test that validate_overlap_vm_area makes: the area holds the start or the end. -/
def HoldsEnd (cur : VmArea) (vmastart vmaend : Nat) : Prop :=
  cur.vmStart.toNat ≤ vmastart ∧ vmastart < cur.vmEnd.toNat ∨
    cur.vmStart.toNat < vmaend ∧ vmaend ≤ cur.vmEnd.toNat

/-- The area lies strictly inside the range. -/
def Within (cur : VmArea) (vmastart vmaend : Nat) : Prop :=
  vmastart < cur.vmStart.toNat ∧ cur.vmStart.toNat < cur.vmEnd.toNat ∧ cur.vmEnd.toNat < vmaend

theorem meets_iff (cur : VmArea) {vmastart vmaend : Nat} (range : vmastart < vmaend) :
    ¬ Disjoint (Set.Ico vmastart vmaend) (Set.Ico cur.vmStart.toNat cur.vmEnd.toNat) ↔
      cur.HoldsEnd vmastart vmaend ∨ cur.Within vmastart vmaend := by
  rw [Set.Ico_disjoint_Ico, HoldsEnd, Within]
  omega

end VmArea

namespace Vmm

section Overlap
variable {vm : Vmm} {vmemsz : BitVec 32} {vmaid : Int} {vmastart vmaend : BitVec 32}

theorem validateOverlapVmArea_iff : vm.validateOverlapVmArea vmemsz vmaid vmastart vmaend = true ↔
    vmaend.toNat < 2 ^ 31 ∧ vmaend.toNat ≤ vmemsz.toNat ∧ ∀ cur ∈ vm.mmap,
      cur.vmId ≠ BitVec.ofInt 64 vmaid →
        ¬ cur.HoldsEnd (vmastart.signExtend 64).toNat vmaend.toNat := by
  have sign : ¬ vmaend.toInt < 0 ↔ vmaend.toNat < 2 ^ 31 := by
    rw [BitVec.toInt_neg_iff]
    omega
  rw [validateOverlapVmArea, decide_eq_true_iff, sign]
  refine and_congr_right fun small => and_congr (by rw [BitVec.lt_def, not_lt]) ?_
  refine forall_congr' fun cur => forall_congr' fun _ => ?_
  rw [not_and, VmArea.HoldsEnd, ← signExtend_small small]
  rfl

/-- The check returns 0 exactly if no other area has a byte of the range. -/
def OverlapExact (vm : Vmm) (vmemsz : BitVec 32) (vmaid : Int) (vmastart vmaend : BitVec 32) :
    Prop :=
  vm.validateOverlapVmArea vmemsz vmaid vmastart vmaend = true ↔
    ∀ cur ∈ vm.mmap, cur.vmId ≠ BitVec.ofInt 64 vmaid →
      Disjoint (Set.Ico vmastart.toNat vmaend.toNat)
        (Set.Ico cur.vmStart.toNat cur.vmEnd.toNat)

/-- The check is right exactly where some other area holds an end of the range, or none lies
strictly inside it. -/
theorem overlapExact_iff (small : vmemsz.toNat < 2 ^ 31) (range : vmastart.toNat < vmaend.toNat)
    (limit : vmaend.toNat ≤ vmemsz.toNat) : vm.OverlapExact vmemsz vmaid vmastart vmaend ↔
      (∃ cur ∈ vm.mmap, cur.vmId ≠ BitVec.ofInt 64 vmaid ∧
        cur.HoldsEnd vmastart.toNat vmaend.toNat) ∨
      ∀ cur ∈ vm.mmap, cur.vmId ≠ BitVec.ofInt 64 vmaid →
        ¬ cur.Within vmastart.toNat vmaend.toNat := by
  have apart : ∀ cur : VmArea, Disjoint (Set.Ico vmastart.toNat vmaend.toNat)
      (Set.Ico cur.vmStart.toNat cur.vmEnd.toNat) ↔
        ¬ cur.HoldsEnd vmastart.toNat vmaend.toNat ∧ ¬ cur.Within vmastart.toNat vmaend.toNat := by
    intro cur
    rw [← not_or, ← cur.meets_iff range, not_not]
  rw [OverlapExact, validateOverlapVmArea_iff, signExtend_small (by omega)]
  simp only [apart]
  constructor
  · intro agrees
    by_cases held : ∃ cur ∈ vm.mmap, cur.vmId ≠ BitVec.ofInt 64 vmaid ∧
        cur.HoldsEnd vmastart.toNat vmaend.toNat
    · exact .inl held
    · have passes := agrees.mp ⟨by omega, limit, fun cur member other holds =>
        held ⟨cur, member, other, holds⟩⟩
      exact .inr fun cur member other => (passes cur member other).2
  · rintro (⟨cur, member, other, holds⟩ | none_within)
    · exact iff_of_false (fun passes => passes.2.2 cur member other holds)
        fun passes => (passes cur member other).1 holds
    · constructor
      · exact fun passes cur member other =>
          ⟨passes.2.2 cur member other, none_within cur member other⟩
      · exact fun passes => ⟨by omega, limit, fun cur member other => (passes cur member other).1⟩

end Overlap

/-- Two areas the way up. -/
def upward : Vmm where
  mmap := [⟨0, 0, 1024, []⟩, ⟨1, 2000, 4096, []⟩]
  symrgtbl := Vector.replicate 30 ⟨-1, 0, 0⟩

theorem overlapExact_iff_upward : upward.OverlapExact 0x300000 0 1024 2256 :=
  (overlapExact_iff (by decide) (by decide) (by decide)).mpr
    (.inl ⟨⟨1, 2000, 4096, []⟩, by decide, by decide, .inr ⟨by decide, by decide⟩⟩)

/-- The range from 1024 to 5000 holds the whole of the other area. -/
theorem overlap_missed : ¬ ∀ (vm : Vmm) (vmemsz : BitVec 32) (vmaid : Int)
    (vmastart vmaend : BitVec 32), (∀ cur ∈ vm.mmap, cur.vmStart.toNat ≤ cur.vmEnd.toNat) →
      vmemsz.toNat < 2 ^ 31 → vmastart.toNat < vmaend.toNat → vmaend.toNat ≤ vmemsz.toNat →
      vm.OverlapExact vmemsz vmaid vmastart vmaend := by
  intro claim
  have agrees := claim upward 0x300000 0 1024 5000 (by decide) (by decide) (by decide) (by decide)
  have apart := agrees.mp (by decide) ⟨1, 2000, 4096, []⟩ (by decide) (by decide)
  exact Set.disjoint_left.mp apart (Set.mem_Ico.mpr ⟨by decide, by decide⟩)
    (Set.mem_Ico.mpr ⟨(le_refl 2000 : _), by decide⟩)

/-! The rounding of `PAGING_PAGE_ALIGNSZ` on an int. -/
section Rounding
variable {x : BitVec 32}

theorem bmod_int {a : Int} (low : -2 ^ 31 ≤ a) (high : a < 2 ^ 31) : a.bmod (2 ^ 32) = a := by
  rw [Int.bmod_eq_iff (by decide)]
  omega

theorem pagingPageAlignsz_toInt (small : x.toInt + 255 < 2 ^ 31) :
    (pagingPageAlignsz x).toInt = (x.toInt + 255).tdiv 256 * 256 := by
  have low := BitVec.le_toInt x
  have sum : x + 256 - 1 = x + 255 := by bv_omega
  have plus : (x + 255).toInt = x.toInt + 255 := by
    rw [BitVec.toInt_add]
    change (x.toInt + 255).bmod _ = _
    exact bmod_int (by omega) small
  have quotient : ((x + 255).sdiv 256).toInt = (x.toInt + 255).tdiv 256 := by
    rw [BitVec.toInt_sdiv_of_ne_or_ne _ _ (.inr (by decide)), plus]
    rfl
  rw [pagingPageAlignsz, sum, BitVec.toInt_mul, quotient]
  change ((x.toInt + 255).tdiv 256 * 256).bmod _ = _
  rcases le_or_gt 0 (x.toInt + 255) with up | down
  · rw [Int.tdiv_eq_ediv_of_nonneg up]
    exact bmod_int (by omega) (by omega)
  · obtain ⟨n, same⟩ : ∃ n : Int, x.toInt + 255 = -n := ⟨-(x.toInt + 255), by omega⟩
    rw [same, Int.neg_tdiv, Int.tdiv_eq_ediv_of_nonneg (by omega)]
    exact bmod_int (by omega) (by omega)

/-- A size is rounded up. -/
theorem pagingPageAlignsz_up (pos : 0 < x.toInt) (small : x.toInt + 255 < 2 ^ 31) :
    (pagingPageAlignsz x).toNat = (x.toNat + 255) / 256 * 256 ∧
      (pagingPageAlignsz x).toNat < 2 ^ 31 := by
  have rounded := pagingPageAlignsz_toInt small
  rw [Int.tdiv_eq_ediv_of_nonneg (by omega)] at rounded
  obtain ⟨same, -⟩ := toNat_of_nonneg pos.le
  obtain ⟨value, bound⟩ := toNat_of_nonneg (by omega : 0 ≤ (pagingPageAlignsz x).toInt)
  exact ⟨by omega, bound⟩

/-- A negative size is rounded towards zero: the first page is lost. -/
theorem pagingPageAlignsz_down (neg : x.toInt < 0) : (pagingPageAlignsz x).toInt =
    -(((-x.toInt).toNat - 255) / 256 * 256 : Nat) := by
  rw [pagingPageAlignsz_toInt (by omega)]
  rcases le_or_gt 0 (x.toInt + 255) with up | down
  · rw [Int.tdiv_eq_ediv_of_nonneg up]
    omega
  · obtain ⟨n, same⟩ : ∃ n : Int, x.toInt + 255 = -n := ⟨-(x.toInt + 255), by omega⟩
    rw [same, Int.neg_tdiv, Int.tdiv_eq_ediv_of_nonneg (by omega)]
    omega

end Rounding

/-- The two areas of a process, the data area on its way up and the heap on its way down,
apart from each other within the memory of the process. -/
structure AreasApart (vm : Vmm) (vmemsz : BitVec 32) : Prop where
  numbers : vm.mmap.map VmArea.vmId = [0, 1]
  upward : ∀ vma ∈ vm.getVmaByNum 0, vma.vmStart.toNat ≤ vma.vmEnd.toNat
  downward : ∀ vma ∈ vm.getVmaByNum 1, vma.vmEnd.toNat ≤ vma.vmStart.toNat
  within : ∀ vma ∈ vm.mmap, vma.hi ≤ vmemsz.toNat
  areas_apart : vm.mmap.Pairwise fun a b => Disjoint a.bytes b.bytes

/-- By how many bytes an increment of the area's sign asks for it to grow. -/
def asked (vmaid : Fin 2) (incSz : BitVec 32) : Int :=
  if vmaid.val = 1 then -incSz.toInt else incSz.toInt

/-- What a call that returns 0 should have done: the area is larger by whole pages. -/
structure Grown (vm vm' : Vmm) (vmemsz : BitVec 32) (vmaid : Fin 2) (size : Nat) : Prop where
  moved : ∃ vma ∈ vm.getVmaByNum vmaid.val, ∃ vmEnd,
    vm'.getVmaByNum vmaid.val = some { vma with vmEnd } ∧
      if vmaid = 1 then vmEnd.toNat + (size + 255) / 256 * 256 = vma.vmEnd.toNat
      else vmEnd.toNat = vma.vmEnd.toNat + (size + 255) / 256 * 256
  others : ∀ other : Fin 2, other ≠ vmaid →
    vm'.getVmaByNum other.val = vm.getVmaByNum other.val
  areas : vm'.AreasApart vmemsz

/-- inc_vma_limit returns, with the area grown or nothing changed. -/
def GrowthKept (vm : Vmm) (vmemsz : BitVec 32) (vmaid : Fin 2) (incSz limit : BitVec 32) : Prop :=
  ∃ ret limit' vm', vm.incVmaLimit vmemsz vmaid.val incSz (some limit) = .ok (ret, limit', vm') ∧
    (ret = true → vm.Grown vm' vmemsz vmaid (asked vmaid incSz).toNat) ∧ (ret = false → vm' = vm)

/-- By how much the end of the area goes up, the heap's too: a negative amount is rounded
towards zero, and then taken off the end. -/
def goesUp (vmaid : Fin 2) (size : Nat) : Nat :=
  if vmaid.val = 1 then (size - 255) / 256 * 256 else (size + 255) / 256 * 256

/-- The new end is negative as an int or beyond the memory of the process, or the other area
holds one of the two ends. -/
def GrowthRefused (vm : Vmm) (vmemsz : BitVec 32) (vmaid : Fin 2) (size : Nat) : Prop :=
  ∃ vma ∈ vm.getVmaByNum vmaid.val, ∃ vmaend,
    vmaend = (vma.vmEnd.toNat + goesUp vmaid size) % 2 ^ 32 ∧
      (2 ^ 31 ≤ vmaend ∨ vmemsz.toNat < vmaend ∨ ∃ cur ∈ vm.mmap,
        cur.vmId ≠ BitVec.ofInt 64 vmaid.val ∧
          cur.HoldsEnd ((vma.vmEnd.setWidth 32).signExtend 64).toNat vmaend)

section Growth
variable {vm : Vmm} {vmemsz : BitVec 32} {vmaid : Fin 2} {incSz : BitVec 32} {vma : VmArea}

/-- The amount that inc_vma_limit adds to the end. -/
theorem signed_amount (pos : 0 < asked vmaid incSz) (small : asked vmaid incSz + 255 < 2 ^ 31) :
    (if (vmaid.val : Int) = 1 then -pagingPageAlignsz incSz
      else pagingPageAlignsz incSz).toNat = goesUp vmaid (asked vmaid incSz).toNat ∧
    goesUp vmaid (asked vmaid incSz).toNat < 2 ^ 31 := by
  unfold asked at pos small
  unfold goesUp asked
  obtain rfl | rfl : vmaid = 0 ∨ vmaid = 1 := by omega
  · obtain ⟨rounded, bound⟩ := pagingPageAlignsz_up pos small
    obtain ⟨same, -⟩ := toNat_of_nonneg pos.le
    change (pagingPageAlignsz incSz).toNat = (incSz.toInt.toNat + 255) / 256 * 256 ∧
      (incSz.toInt.toNat + 255) / 256 * 256 < 2 ^ 31
    omega
  · have neg : incSz.toInt < 0 := by
      change 0 < -incSz.toInt at pos
      omega
    have rounded := pagingPageAlignsz_down neg
    have sign := BitVec.toInt_eq_toNat_cond (pagingPageAlignsz incSz)
    have := (pagingPageAlignsz incSz).isLt
    change (-pagingPageAlignsz incSz).toNat = ((-incSz.toInt).toNat - 255) / 256 * 256 ∧
      ((-incSz.toInt).toNat - 255) / 256 * 256 < 2 ^ 31
    change -incSz.toInt + 255 < 2 ^ 31 at small
    rw [BitVec.toNat_neg]
    split at sign
    · omega
    · omega

theorem mayInc_iff (vmemsz : BitVec 32) (area : vm.getVmaByNum vmaid.val = some vma)
    (pos : 0 < asked vmaid incSz) (small : asked vmaid incSz + 255 < 2 ^ 31) :
    vm.mayInc vmemsz vmaid.val vma (pagingPageAlignsz incSz) = false ↔
      vm.GrowthRefused vmemsz vmaid (asked vmaid incSz).toNat := by
  obtain ⟨amount, bound⟩ := signed_amount pos small
  have new_end : ((vma.vmEnd + (if (vmaid.val : Int) = 1 then -pagingPageAlignsz incSz
      else pagingPageAlignsz incSz).signExtend 64).setWidth 32).toNat =
        (vma.vmEnd.toNat + goesUp vmaid (asked vmaid incSz).toNat) % 2 ^ 32 := by
    rw [BitVec.toNat_setWidth, BitVec.toNat_add, signExtend_small (by omega), amount]
    omega
  rw [mayInc, ← Bool.not_eq_true, validateOverlapVmArea_iff, new_end, GrowthRefused, area]
  simp only [Option.mem_some_iff, exists_eq_left', not_and_or, not_lt, not_le, not_forall, not_not,
    exists_prop, exists_eq_left]

theorem AreasApart.two (areas : vm.AreasApart vmemsz) : ∃ data heap, vm.mmap = [data, heap] := by
  have two := congrArg List.length areas.numbers
  rw [List.length_map] at two
  exact List.length_eq_two.mp two

theorem incVmaLimit_some (area : vm.getVmaByNum vmaid.val = some vma) (limit : BitVec 32) :
    vm.incVmaLimit vmemsz vmaid.val incSz (some limit) =
      if vm.mayInc vmemsz vmaid.val vma (pagingPageAlignsz incSz) then
        .ok (true, some (pagingPageAlignsz incSz), { vm with
          mmap := vm.mmap.modify vmaid.val fun vma => { vma with
            vmEnd := if vmaid = 1 then vma.vmEnd - (pagingPageAlignsz incSz).signExtend 64
              else vma.vmEnd + (pagingPageAlignsz incSz).signExtend 64 } })
      else .ok (false, some limit, vm) := by
  unfold incVmaLimit
  rw [area]
  obtain rfl | rfl : vmaid = 0 ∨ vmaid = 1 := by omega
  · rfl
  · rfl

/-- The data area grown is right where it stays within the memory and clear of the heap. -/
theorem grown_data_iff (apart : vm.AreasApart vmemsz) {data heap : VmArea}
    (areas : vm.mmap = [data, heap]) {amt : BitVec 64} {size : Nat}
    (amount : amt.toNat = (size + 255) / 256 * 256) (bound : amt.toNat < 2 ^ 31) :
    vm.Grown { vm with mmap := [{ data with vmEnd := data.vmEnd + amt }, heap] } vmemsz 0 size ↔
      vm.Growable vmemsz 0 size := by
  have first : vm.getVmaByNum 0 = some data := by
    rw [getVmaByNum, areas]
    rfl
  have numbers := apart.numbers
  have ordered := apart.upward data first
  have limits := apart.within
  have disjoint := apart.areas_apart
  rw [areas] at numbers limits disjoint
  have inside := limits data List.mem_cons_self
  have heap_inside := limits heap (List.mem_cons_of_mem _ List.mem_cons_self)
  have small := vmemsz.isLt
  have new_end : (data.vmEnd + amt).toNat = data.vmEnd.toNat + (size + 255) / 256 * 256 := by
    unfold VmArea.hi at inside
    rw [BitVec.toNat_add, Nat.mod_eq_of_lt (by omega), amount]
  have range : VmArea.bytes { data with vmEnd := data.vmEnd + amt } =
      data.grown 0 ((size + 255) / 256 * 256) := by
    change Set.Ico (min data.vmStart.toNat (data.vmEnd + amt).toNat)
      (max data.vmStart.toNat (data.vmEnd + amt).toNat) = Set.Ico data.vmStart.toNat _
    rw [new_end, Nat.min_eq_left (by omega), Nat.max_eq_right (by omega)]
  have second : vm.getVmaByNum 1 = some heap := by
    rw [getVmaByNum, areas]
    rfl
  constructor
  · intro grown
    have fits := (le_max_right _ _).trans (grown.areas.within _ List.mem_cons_self)
    have clear := List.rel_of_pairwise_cons grown.areas.areas_apart (List.mem_singleton_self heap)
    rw [range] at clear
    rw [new_end] at fits
    refine ⟨data, first, _, rfl, fits, fun other member different => ?_⟩
    rw [areas] at member
    rcases List.mem_pair.mp member with rfl | rfl
    · exact absurd rfl different
    · exact clear
  · rintro ⟨vma, here, _, rfl, fits, clear⟩
    obtain rfl := Option.some.inj (first.symm.trans here)
    rw [if_neg (by decide)] at fits
    have different : heap.vmId ≠ data.vmId := by
      simp only [List.map_cons, List.map_nil, List.cons.injEq, and_true] at numbers
      rw [numbers.1, numbers.2]
      decide
    refine ⟨⟨data, first, _, rfl, new_end⟩, ?_, ?_⟩
    · intro other second_area
      obtain rfl : other = 1 := by omega
      exact second.symm
    · refine ⟨numbers, ?_, ?_, ?_, ?_⟩
      · intro vma member
        obtain rfl := Option.some.inj member
        change data.vmStart.toNat ≤ (data.vmEnd + amt).toNat
        omega
      · intro vma member
        exact apart.downward vma (second.trans member)
      · intro vma member
        rcases List.mem_pair.mp member with rfl | rfl
        · exact max_le ((le_max_left _ _).trans inside) (new_end ▸ fits)
        · exact heap_inside
      · refine List.pairwise_pair.mpr ?_
        rw [range]
        exact clear heap (areas ▸ List.mem_cons_of_mem _ List.mem_cons_self) different

/-- Where the heap is let grow its end has not gone down. -/
theorem not_grown_heap {data heap : VmArea} (areas : vm.mmap = [data, heap]) {amt : BitVec 64}
    {size : Nat} (pos : 0 < size) (up : amt.toInt ≤ 0) (bound : -amt.toInt < 2 ^ 31)
    (small : heap.vmEnd.toNat < 2 ^ 32) :
    ¬ vm.Grown { vm with mmap := [data, { heap with vmEnd := heap.vmEnd - amt }] } vmemsz 1
      size := by
  rintro ⟨⟨vma, here, vmEnd, after, moved⟩, -⟩
  have second : vm.getVmaByNum 1 = some heap := by
    rw [getVmaByNum, areas]
    rfl
  obtain rfl := Option.some.inj (second.symm.trans here)
  have same : heap.vmEnd - amt = vmEnd := congrArg VmArea.vmEnd (Option.some.inj after)
  rw [if_pos rfl, ← same, BitVec.toNat_sub] at moved
  have sign := BitVec.toInt_eq_toNat_cond amt
  have := amt.isLt
  split at sign
  · omega
  · omega

/-- inc_vma_limit does what it should exactly where it refuses, or where it is the data area
that grows and it stays within the memory and clear of the heap. -/
theorem growthKept_iff (apart : vm.AreasApart vmemsz) (pos : 0 < asked vmaid incSz)
    (small : asked vmaid incSz + 255 < 2 ^ 31) (limit : BitVec 32) :
    vm.GrowthKept vmemsz vmaid incSz limit ↔
      vm.GrowthRefused vmemsz vmaid (asked vmaid incSz).toNat ∨
      vmaid = 0 ∧ vm.Growable vmemsz 0 (asked vmaid incSz).toNat := by
  obtain ⟨data, heap, areas⟩ := apart.two
  obtain ⟨vma, area⟩ : ∃ vma, vm.getVmaByNum vmaid.val = some vma := by
    unfold getVmaByNum
    rw [areas]
    obtain rfl | rfl : vmaid = 0 ∨ vmaid = 1 := by omega
    · exact ⟨data, rfl⟩
    · exact ⟨heap, rfl⟩
  have refused := mayInc_iff vmemsz area pos small
  rw [GrowthKept, incVmaLimit_some area, ← refused]
  cases may : vm.mayInc vmemsz vmaid.val vma (pagingPageAlignsz incSz) with
  | false => exact iff_of_true ⟨false, some limit, vm, rfl, nofun, fun _ => rfl⟩ (.inl rfl)
  | true =>
      have returns : ∀ after, (∃ ret limit' vm', (Except.ok (true, some (pagingPageAlignsz incSz),
          after) : Except Fault _) = .ok (ret, limit', vm') ∧
            (ret = true → vm.Grown vm' vmemsz vmaid (asked vmaid incSz).toNat) ∧
            (ret = false → vm' = vm)) ↔
          vm.Grown after vmemsz vmaid (asked vmaid incSz).toNat := by
        intro after
        constructor
        · rintro ⟨_, _, _, returned, grown, -⟩
          obtain ⟨rfl, rest⟩ := Prod.mk.inj (Except.ok.inj returned)
          obtain ⟨-, rfl⟩ := Prod.mk.inj rest
          exact grown rfl
        · exact fun grown => ⟨true, _, after, rfl, fun _ => grown, nofun⟩
      rw [if_pos rfl, returns, or_iff_right (by decide), areas]
      obtain rfl | rfl : vmaid = 0 ∨ vmaid = 1 := by omega
      · obtain ⟨rounded, bound⟩ := pagingPageAlignsz_up pos small
        have wide := signExtend_small bound
        obtain ⟨same, -⟩ := toNat_of_nonneg pos.le
        rw [and_iff_right rfl]
        refine grown_data_iff apart areas ?_ (wide ▸ bound)
        rw [wide, rounded, same]
        rfl
      · refine iff_of_false ?_ fun h => absurd h.1 (by decide)
        have neg : incSz.toInt < 0 := by
          change 0 < -incSz.toInt at pos
          omega
        change -incSz.toInt + 255 < 2 ^ 31 at small
        have rounded := pagingPageAlignsz_down neg
        have wide := BitVec.toInt_signExtend_of_le (x := pagingPageAlignsz incSz)
          (show 32 ≤ 64 by decide)
        have inside := (le_max_right _ _).trans (apart.within heap (by rw [areas]; simp))
        have := vmemsz.isLt
        exact not_grown_heap areas (by omega) (by omega) (by omega) (by omega)

end Growth

theorem Consistent.toAreasApart {vm : Vmm} {vmemsz : BitVec 32} (con : vm.Consistent vmemsz) :
    vm.AreasApart vmemsz :=
  ⟨con.numbers, con.upward, con.downward, con.within, con.areas_apart⟩

/-- The data area grows by two pages, up to 1536, with the heap above 2000. -/
theorem growthKept_iff_twoAreas : twoAreas.GrowthKept 4096 0 300 0 :=
  (growthKept_iff twoAreas_consistent.toAreasApart (by decide) (by decide) 0).mpr
    (.inr ⟨rfl, _, rfl, 512, rfl, by decide, by
      intro other member different
      rcases List.mem_pair.mp member with rfl | rfl
      · exact absurd rfl different
      · exact Set.disjoint_left.mpr fun x low high =>
          absurd (low.2.trans (by decide)) (not_lt.mpr high.1)⟩)

/-- The heap is to grow by a page; inc_vma_limit returns 0 and leaves its end where it was. -/
theorem heap_not_grown : ¬ ∀ (vm : Vmm) (vmemsz : BitVec 32) (vmaid : Fin 2)
    (incSz limit : BitVec 32), vm.AreasApart vmemsz → 0 < asked vmaid incSz →
      asked vmaid incSz + 255 < 2 ^ 31 → vm.GrowthKept vmemsz vmaid incSz limit := by
  intro claim
  obtain ⟨ret, limit', vm', returned, grown, -⟩ := claim twoAreas 4096 1 (-256) 0
    twoAreas_consistent.toAreasApart (by decide) (by decide)
  have stays : twoAreas.incVmaLimit 4096 1 (-256) (some 0) = .ok (true, some 0, twoAreas) := by
    decide +kernel
  obtain ⟨rfl, rest⟩ := Prod.mk.inj (Except.ok.inj (stays.symm.trans returned))
  obtain ⟨-, rfl⟩ := Prod.mk.inj rest
  obtain ⟨vma, here, vmEnd, there, moved⟩ := (grown rfl).moved
  have same : vma.vmEnd = vmEnd := congrArg VmArea.vmEnd (Option.some.inj (here.symm.trans there))
  have asks : (asked 1 (-256)).toNat = 256 := by decide
  rw [if_pos rfl, same, asks] at moved
  omega

end Vmm
end OsSim
