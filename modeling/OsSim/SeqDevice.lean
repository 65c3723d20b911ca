import OsSim.InitMemphy

/-! MEMPHY_read and MEMPHY_write on the two kinds of device. The sequential ones move a
cursor to the address first, but are refused by a check for the other kind. -/
namespace OsSim
namespace MemphyNode

/-- A call of MEMPHY_read or MEMPHY_write at an address of the device. -/
inductive Access (maxsz : Nat) where
  | read (addr : Fin maxsz)
  | write (addr : Fin maxsz) (data : BitVec 8)

def Access.addr {maxsz : Nat} : Access maxsz → Nat
  | read addr | write addr _ => addr

/-- What the call returns: -1, or 0, which MEMPHY_read returns with the data. -/
inductive Returned where
  | failed
  | written
  | value (data : BitVec 8)

/-- The loop of MEMPHY_mv_csr, with the steps left up to the size of the device. -/
def mvCsrLoop (offset : Nat) : (left numstep : Nat) → MemphyNode → MemphyNode
  | 0, _, mp => mp
  | left + 1, numstep, mp =>
      if numstep < offset then
        mvCsrLoop offset left (numstep + 1) { mp with cursor := (mp.cursor + 1) % mp.maxsz }
      else mp

def mvCsr (mp : MemphyNode) (offset : Nat) : MemphyNode :=
  mvCsrLoop offset mp.maxsz 0 { mp with cursor := 0 }

/-- MEMPHY_seq_read: it is not compatible with a device whose `rdmflg` is not set. -/
def seqRead (mp : MemphyNode) (addr : Nat) : Returned × MemphyNode :=
  if !mp.rdmflg then (.failed, mp)
  else
    let mp := mp.mvCsr addr
    (.value (mp.storage addr), mp)

/-- MEMPHY_read. -/
def read (mp : MemphyNode) (addr : Nat) : Returned × MemphyNode :=
  if mp.rdmflg then (.value (mp.storage addr), mp) else mp.seqRead addr

/-- MEMPHY_seq_write. -/
def seqWrite (mp : MemphyNode) (addr : Nat) (data : BitVec 8) : Returned × MemphyNode :=
  if !mp.rdmflg then (.failed, mp)
  else
    let mp := mp.mvCsr addr
    (.written, { mp with storage := Function.update mp.storage addr data })

/-- MEMPHY_write. -/
def write (mp : MemphyNode) (addr : Nat) (data : BitVec 8) : Returned × MemphyNode :=
  if mp.rdmflg then
    (.written, { mp with storage := Function.update mp.storage addr data })
  else mp.seqWrite addr data

variable {maxsz : Nat}

def access (mp : MemphyNode) : Access maxsz → Returned × MemphyNode
  | .read addr => mp.read addr
  | .write addr data => mp.write addr data

/-- The same access through MEMPHY_seq_read and MEMPHY_seq_write. -/
def seqAccess (mp : MemphyNode) : Access maxsz → Returned × MemphyNode
  | .read addr => mp.seqRead addr
  | .write addr data => mp.seqWrite addr data

/-- Both devices return the same for every access, and each leaves the cursor of the first
one at its address. -/
def Agree (exec exec' : MemphyNode → Access maxsz → Returned × MemphyNode) :
    MemphyNode → MemphyNode → List (Access maxsz) → Prop
  | _, _, [] => True
  | mp, mp', a :: accesses =>
      (exec mp a).1 = (exec' mp' a).1 ∧ (exec mp a).2.cursor = a.addr ∧
        Agree exec exec' (exec mp a).2 (exec' mp' a).2 accesses

/-- The cursor counts the steps modulo the size. -/
theorem mvCsrLoop_eq {offset left numstep : Nat} (mp : MemphyNode) (before : numstep ≤ offset) :
    mvCsrLoop offset left numstep { mp with cursor := numstep % mp.maxsz } =
      { mp with cursor := min offset (numstep + left) % mp.maxsz } := by
  induction left generalizing numstep with
  | zero => rw [mvCsrLoop, Nat.add_zero, Nat.min_eq_right before]
  | succ left ih =>
      rw [mvCsrLoop]
      split
      · rename_i more
        dsimp only
        rw [Nat.mod_add_mod, ih more, Nat.succ_add_eq_add_succ]
      · rename_i arrived
        rw [Nat.le_antisymm before (Nat.not_lt.mp arrived), Nat.min_eq_left (Nat.le_add_right _ _)]

/-- At an address of the device the cursor arrives at it. -/
theorem mvCsr_eq (mp : MemphyNode) {addr : Nat} (inside : addr < mp.maxsz) :
    mp.mvCsr addr = { mp with cursor := addr } := by
  have steps : mvCsrLoop addr mp.maxsz 0 { mp with cursor := 0 % mp.maxsz } = _ :=
    mvCsrLoop_eq mp (Nat.zero_le addr)
  rw [Nat.zero_mod, Nat.zero_add, Nat.min_eq_left inside.le, Nat.mod_eq_of_lt inside] at steps
  exact steps

theorem access_random {mp : MemphyNode} (random : mp.rdmflg = true) (a : Access maxsz) :
    mp.access a = match a with
      | .read addr => (.value (mp.storage addr), mp)
      | .write addr data =>
          (.written, { mp with storage := Function.update mp.storage addr data }) := by
  cases a with
  | read addr => exact if_pos random
  | write addr data => exact if_pos random

/-- A device that is not random access returns -1 and stays as it is. -/
theorem access_sequential {mp : MemphyNode} (sequential : mp.rdmflg = false)
    (a : Access maxsz) : mp.access a = (.failed, mp) := by
  cases a with
  | read addr => simp [access, read, seqRead, sequential]
  | write addr data => simp [access, write, seqWrite, sequential]

/-- What an access leaves of a random access device. -/
theorem access_random_kept {mp : MemphyNode} (random : mp.rdmflg = true) (a : Access maxsz) :
    (mp.access a).1 ≠ .failed ∧ (mp.access a).2.rdmflg = true := by
  rw [access_random random]
  cases a with
  | read addr => exact ⟨nofun, random⟩
  | write addr data => exact ⟨nofun, random⟩

/-- Where the check lets them through, the sequential calls do what the others do, and the
cursor follows. -/
theorem seqAccess_random {mp mp' : MemphyNode} (random : mp.rdmflg = true)
    (random' : mp'.rdmflg = true) (sized : mp.maxsz = maxsz) (same : mp.storage = mp'.storage)
    (a : Access maxsz) : ∃ storage, storage = (mp'.access a).2.storage ∧
      mp.seqAccess a = ((mp'.access a).1, { mp with storage, cursor := a.addr }) := by
  subst sized
  refine ⟨_, rfl, ?_⟩
  have compatible : ¬ (!mp.rdmflg) = true := by simp [random]
  rw [access_random random']
  cases a with
  | read addr =>
      refine (if_neg compatible).trans ?_
      rw [mvCsr_eq mp addr.isLt]
      dsimp only
      rw [← same]
      rfl
  | write addr data =>
      refine (if_neg compatible).trans ?_
      rw [mvCsr_eq mp addr.isLt]
      dsimp only
      rw [← same]
      rfl

/-- So the two ways to access a device agree but for that check: by induction on the accesses,
with the same storage on both sides. -/
theorem seqAccess_agrees {mp mp' : MemphyNode} (random : mp.rdmflg = true)
    (random' : mp'.rdmflg = true) (sized : mp.maxsz = maxsz) (same : mp.storage = mp'.storage)
    (accesses : List (Access maxsz)) : Agree seqAccess access mp mp' accesses := by
  induction accesses generalizing mp mp' with
  | nil => trivial
  | cons a accesses ih =>
      obtain ⟨storage, stored, done⟩ := seqAccess_random random random' sized same a
      obtain ⟨-, kept⟩ := access_random_kept random' a
      rw [Agree, done]
      exact ⟨rfl, rfl, ih random kept sized stored⟩

/-- The check refuses the devices it is for, so they agree with no other. -/
theorem access_agree_iff {mp mp' : MemphyNode} (sequential : mp.rdmflg = false)
    (random : mp'.rdmflg = true) (accesses : List (Access maxsz)) :
    Agree access access mp mp' accesses ↔ accesses = [] := by
  cases accesses with
  | nil => exact iff_of_true trivial rfl
  | cons a accesses =>
      refine iff_of_false ?_ (List.cons_ne_nil a accesses)
      rintro ⟨same, -⟩
      rw [access_sequential sequential] at same
      exact (access_random_kept random a).1 same.symm

end MemphyNode

namespace MemphyHeap
open MemphyNode

/-- A sequential device and a random access device with the same storage, both as
init_memphy leaves them: they agree on no access at all. -/
theorem devices_agree_iff (s s' : MemphyHeap) (storage : Nat → BitVec 8) (b b' : FrameBlocks)
    {maxSize : Nat} (accesses : List (Access maxSize)) :
    Agree access access (s.initMemphy storage b maxSize 0).mp
      (s'.initMemphy storage b' maxSize 1).mp accesses ↔ accesses = [] :=
  access_agree_iff rfl rfl accesses

/-- One byte, read once. -/
theorem sequential_read_refused : ¬ ∀ (s s' : MemphyHeap) (storage : Nat → BitVec 8)
    (b b' : FrameBlocks) (maxSize : Nat) (accesses : List (Access maxSize)),
      Agree access access (s.initMemphy storage b maxSize 0).mp
        (s'.initMemphy storage b' maxSize 1).mp accesses := by
  intro claim
  let s : MemphyHeap := ⟨⟨fun _ => 0, 0, false, 0, 0⟩, fun _ => ⟨0, 0⟩⟩
  let b : FrameBlocks := ⟨Nat.succ, Nat.succ_ne_zero, fun _ _ => Nat.succ.inj⟩
  have returned := (claim s s (fun _ => 7) b b 1 [.read ⟨0, Nat.one_pos⟩]).1
  cases returned

/-- MEMPHY_read on the memory is the one on the device it shows. -/
theorem Shows.read {s : MemphyHeap} {mp : Memphy} (same : s.Shows mp) (addr : Nat) :
    s.mp.read addr = (match mp.read addr with
      | none => .failed
      | some data => .value data, s.mp) := by
  obtain ⟨storage, -, rdmflg, -⟩ := same
  rw [MemphyNode.read, seqRead, Memphy.read, ← rdmflg, ← storage]
  cases s.mp.rdmflg <;> rfl

/-- MEMPHY_write as well. -/
theorem Shows.write {s : MemphyHeap} {mp : Memphy} (same : s.Shows mp) (addr : Nat)
    (data : BitVec 8) : match mp.write addr data with
      | none => s.mp.write addr data = (.failed, s.mp)
      | some mp => (s.mp.write addr data).1 = .written ∧
          Shows { s with mp := (s.mp.write addr data).2 } mp := by
  obtain ⟨storage, maxsz, rdmflg, list⟩ := same
  cases flag : s.mp.rdmflg with
  | false => simp [MemphyNode.write, seqWrite, Memphy.write, ← rdmflg, flag]
  | true =>
      have random : s.mp.write addr data = _ := if_pos flag
      rw [Memphy.write, if_pos (rdmflg.symm.trans flag)]
      dsimp only
      rw [random]
      exact ⟨rfl, congrArg (Function.update · addr data) storage, maxsz, rdmflg, list⟩

end MemphyHeap
end OsSim
