import OsSim.Paging

/-! `__swap_cp_page` over devices that its caller names, so that source and destination may be
the same one. The copy goes byte by byte and reads what it has written, if that is in its way. -/
namespace OsSim
namespace Memphy
variable {ι : Type*} [DecidableEq ι]

/-- One round of the loop: the byte is read from the source as it is by now. -/
def copyCellOn (src dst : ι) (addrsrc addrdst : Nat) (devs : ι → Memphy) : ι → Memphy :=
  Function.update devs dst (copyCell (devs src) addrsrc addrdst (devs dst))

/-- The loop of `__swap_cp_page` up to `cellidx`. -/
def copyCells (src : ι) (srcfpn : Nat) (dst : ι) (dstfpn : Nat) (cellidx : Nat)
    (devs : ι → Memphy) : ι → Memphy :=
  (List.range cellidx).foldl (fun devs cellidx => copyCellOn src dst
    (srcfpn * pagingPageSz + cellidx) (dstfpn * pagingPageSz + cellidx) devs) devs

/-- `__swap_cp_page`: whether it returned 0, and the devices after it. -/
def swapCpPageOn (devs : ι → Memphy) (src : ι) (srcfpn : Int) (dst : ι) (dstfpn : Int) :
    Bool × (ι → Memphy) :=
  if srcfpn < 0 ∨ dstfpn < 0 then (false, devs)
  else (true, copyCells src srcfpn.toNat dst dstfpn.toNat pagingPageSz devs)

/-- A storage where the first bytes of a frame are those that another frame held. -/
def pasted (storage held : Nat → BitVec 8) (srcfpn dstfpn cellidx : Nat) : Nat → BitVec 8 :=
  fun addr =>
    if dstfpn * pagingPageSz ≤ addr ∧ addr < dstfpn * pagingPageSz + cellidx then
      held (srcfpn * pagingPageSz + (addr - dstfpn * pagingPageSz))
    else storage addr

section Loop
variable {devs : ι → Memphy} {src dst : ι} {srcfpn dstfpn cellidx : Nat}

theorem copyCells_succ : copyCells src srcfpn dst dstfpn (cellidx + 1) devs =
    copyCellOn src dst (srcfpn * pagingPageSz + cellidx) (dstfpn * pagingPageSz + cellidx)
      (copyCells src srcfpn dst dstfpn cellidx devs) := by
  rw [copyCells, List.range_succ, List.foldl_append]
  rfl

theorem copyCell_random {mpsrc mpdst : Memphy} (random : mpsrc.rdmflg = true)
    (random' : mpdst.rdmflg = true) (storage storage' : Nat → BitVec 8) (addrsrc addrdst : Nat) :
    copyCell { mpsrc with storage } addrsrc addrdst { mpdst with storage := storage' } =
      { mpdst with storage := Function.update storage' addrdst (storage addrsrc) } := by
  rw [copyCell, read, write, if_pos random, if_pos random']
  rfl

/-- The byte that the next round reads has not been written yet: frames meet only where they
are the same, and there the byte comes after those that have been copied. -/
theorem pasted_unread (few : cellidx < pagingPageSz) (storage held : Nat → BitVec 8) :
    pasted storage held srcfpn dstfpn cellidx (srcfpn * pagingPageSz + cellidx) =
      storage (srcfpn * pagingPageSz + cellidx) := by
  refine if_neg ?_
  rintro ⟨low, high⟩
  simp only [pagingPageSz] at few low high
  omega

theorem pasted_zero (storage held : Nat → BitVec 8) :
    pasted storage held srcfpn dstfpn 0 = storage := by
  funext addr
  exact if_neg (by omega)

theorem pasted_succ (storage held : Nat → BitVec 8) :
    Function.update (pasted storage held srcfpn dstfpn cellidx) (dstfpn * pagingPageSz + cellidx)
      (held (srcfpn * pagingPageSz + cellidx)) =
        pasted storage held srcfpn dstfpn (cellidx + 1) := by
  funext addr
  rw [Function.update_apply, pasted, pasted]
  by_cases here : addr = dstfpn * pagingPageSz + cellidx
  · subst here
    rw [if_pos rfl, if_pos (by omega), Nat.add_sub_cancel_left]
  · rw [if_neg here]
    exact if_congr (by omega) rfl rfl

/-- The loop invariant, by induction on the bytes copied. -/
theorem copyCells_eq (random : (devs src).rdmflg = true) (random' : (devs dst).rdmflg = true)
    (few : cellidx ≤ pagingPageSz) : copyCells src srcfpn dst dstfpn cellidx devs =
      Function.update devs dst { devs dst with
        storage := pasted (devs dst).storage (devs src).storage srcfpn dstfpn cellidx } := by
  induction cellidx with
  | zero =>
      rw [pasted_zero, Function.update_eq_self]
      rfl
  | succ cellidx ih =>
      rw [copyCells_succ, ih (Nat.le_of_succ_le few), copyCellOn, Function.update_idem,
        ← pasted_succ]
      by_cases same : src = dst
      · subst same
        rw [Function.update_self, copyCell_random random' random']
        dsimp only
        rw [pasted_unread few]
      · rw [Function.update_of_ne same, Function.update_self]
        exact congrArg _ (copyCell_random random random' (devs src).storage _ _ _)

end Loop

/-- The destination frame holds what the source frame held, and nothing else has changed. -/
structure CopiesPage (devs devs' : ι → Memphy) (src : ι) (srcfpn : Nat) (dst : ι)
    (dstfpn : Nat) : Prop where
  copied : ∀ off < pagingPageSz, (devs' dst).storage (dstfpn * pagingPageSz + off) =
    (devs src).storage (srcfpn * pagingPageSz + off)
  frame : ∀ addr, ¬ (dstfpn * pagingPageSz ≤ addr ∧ addr < (dstfpn + 1) * pagingPageSz) →
    (devs' dst).storage addr = (devs dst).storage addr
  rest : { devs' dst with storage := (devs dst).storage } = devs dst
  others : ∀ d ≠ dst, devs' d = devs d

/-- A page copy is exact, also within one device, whatever the two frames. -/
theorem copy_exact {devs : ι → Memphy} {src dst : ι} (random : (devs src).rdmflg = true)
    (random' : (devs dst).rdmflg = true) {srcfpn dstfpn : Nat}
    (inside : (srcfpn + 1) * pagingPageSz ≤ (devs src).maxsz)
    (inside' : (dstfpn + 1) * pagingPageSz ≤ (devs dst).maxsz) :
    ∃ devs', swapCpPageOn devs src srcfpn dst dstfpn = (true, devs') ∧
      CopiesPage devs devs' src srcfpn dst dstfpn ∧
      ∀ cellidx < pagingPageSz, srcfpn * pagingPageSz + cellidx < (devs src).maxsz ∧
        dstfpn * pagingPageSz + cellidx < (devs dst).maxsz := by
  refine ⟨_, if_neg (by omega), ?_, ?_⟩
  · rw [Int.toNat_natCast, Int.toNat_natCast, copyCells_eq random random' le_rfl]
    refine ⟨fun off few => ?_, fun addr outside => ?_, ?_, fun d other =>
      Function.update_of_ne other _ _⟩
    · rw [Function.update_self]
      refine (if_pos ⟨by omega, by omega⟩).trans ?_
      rw [Nat.add_sub_cancel_left]
    · rw [Function.update_self]
      refine if_neg fun within => outside ⟨within.1, ?_⟩
      rw [Nat.succ_mul]
      exact within.2
    · rw [Function.update_self]
  · intro cellidx few
    rw [Nat.succ_mul] at inside inside'
    omega

/-- Between two devices it is the copy that pg_getpage makes. -/
theorem swapCpPageOn_apart {src dst : ι} (apart : src ≠ dst) (devs : ι → Memphy)
    (srcfpn dstfpn : Nat) : swapCpPageOn devs src srcfpn dst dstfpn =
      (true, Function.update devs dst (swapCpPage (devs src) srcfpn (devs dst) dstfpn)) := by
  have loop : ∀ (cells : List Nat) (devs : ι → Memphy), cells.foldl (fun devs cellidx =>
      copyCellOn src dst (srcfpn * pagingPageSz + cellidx) (dstfpn * pagingPageSz + cellidx)
        devs) devs =
      Function.update devs dst (cells.foldl (fun mpdst cellidx => copyCell (devs src)
        (srcfpn * pagingPageSz + cellidx) (dstfpn * pagingPageSz + cellidx) mpdst)
          (devs dst)) := by
    intro cells
    induction cells with
    | nil => exact fun devs => (Function.update_eq_self dst devs).symm
    | cons cellidx cells ih =>
        intro devs
        rw [List.foldl_cons, List.foldl_cons, ih, copyCellOn, Function.update_idem,
          Function.update_self, Function.update_of_ne apart]
  rw [swapCpPageOn, if_neg (by omega), Int.toNat_natCast, Int.toNat_natCast]
  exact congrArg (Prod.mk true) (loop _ devs)

/-- A device of two frames, each byte half its address. -/
def numbered : Memphy := ⟨fun addr => BitVec.ofNat 8 (addr / 2), 512, true, []⟩

/-- Frame 0 copied onto frame 1 of the same device. -/
theorem copy_exact_within : ∃ devs', swapCpPageOn (fun _ : Unit => numbered) () 0 () 1 =
    (true, devs') ∧ CopiesPage (fun _ => numbered) devs' () 0 () 1 := by
  obtain ⟨devs', returned, copies, -⟩ := @copy_exact Unit inferInstance (fun _ => numbered) () ()
    rfl rfl 0 1 (by decide) (by decide)
  exact ⟨devs', returned, copies⟩

end Memphy
end OsSim
