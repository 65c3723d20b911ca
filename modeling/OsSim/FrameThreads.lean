import OsSim.FreeMemph
import OsSim.InitMemphy
import OsSim.Locks
import OsSim.Transition

/-! Threads that take frames off the free lists and put frames on them, one access to the shared
memory at a time. ram_lock and swap_lock are static in mm.h: each file has its own, and a caller's
lock is not that of MEMPHY_get_freefp. -/
namespace OsSim
open Linked Transition

/-- The devices: `mram` of main, and its `mswp`. -/
inductive FpDevice
  | mram
  | mswp (k : Nat)
deriving DecidableEq

/-- ram_lock of mm.c, of mm-vm.c and of mm-memphy.c, and swap_lock of mm-vm.c. -/
inductive MmLock
  | mmRam
  | mmVmRam
  | mmMemphyRam
  | mmVmSwap
deriving DecidableEq

/-- The calls of MEMPHY_get_freefp, in alloc_pages_range and pg_getpage, and those of
MEMPHY_put_freefp, in free_pcb_memph. -/
inductive FpCall
  | get (mp : FpDevice)
  | put (mp : FpDevice) (fpn : Nat)
deriving DecidableEq

/-- The lock that the caller holds around the call. -/
def FpCall.lock : FpCall → MmLock
  | .get .mram => .mmRam
  | .put .mram _ => .mmVmRam
  | .get (.mswp _) | .put (.mswp _) _ => .mmVmSwap

theorem FpCall.lock_ne (call : FpCall) : call.lock ≠ .mmMemphyRam := by
  cases call with
  | get mp | put mp => cases mp <;> simp [lock]

/-- Where a thread is: before the lock of the caller, in a call after its reads and writes so far,
and before the unlock. -/
inductive FpLoc
  | outside
  | entering (call : FpCall)
  | entered (call : FpCall)
  | locked (mp : FpDevice)
  | readList (mp : FpDevice) (fp : Ptr)
  | readFpn (mp : FpDevice) (fp : Ptr) (fpn : Nat)
  | readNext (mp : FpDevice) (fp : Ptr) (fpn : Nat) (fpNext : Ptr)
  | unlinked (mp : FpDevice) (fp : Ptr) (fpn : Nat)
  | returning (mp : FpDevice) (retfpn : Option Nat)
  | putting (mp : FpDevice) (fpn : Nat) (fp : Ptr)
  | newNode (mp : FpDevice) (fpn : Nat) (newnode : Ptr)
  | leaving (call : FpCall) (retfpn : Option Nat)
deriving DecidableEq

/-- A call that has come to its effect: what MEMPHY_get_freefp is going to return, `none` for -1,
or the frame that MEMPHY_put_freefp has put on the list. -/
inductive FpEvent
  | got (mp : FpDevice) (retfpn : Option Nat)
  | put (mp : FpDevice) (fpn : Nat)

/-- What the next step from a place makes happen. -/
def FpLoc.event : FpLoc → List FpEvent
  | .readList mp fp => if fp = 0 then [.got mp none] else []
  | .readNext mp _ fpn _ => [.got mp (some fpn)]
  | .newNode mp fpn _ => [.put mp fpn]
  | _ => []

/-- The nodes that are allocated, `none` for a block that is not, the free lists, the locks and the
threads; `crashed` once a thread has followed a pointer into a block that is not allocated. -/
structure FrameHeap (τ : Type*) where
  fp : Ptr → Option FpNode
  freeFpList : FpDevice → Ptr
  holder : MmLock → Option τ
  loc : τ → FpLoc
  crashed : Bool

/-- A thread makes a call, or goes on in it; its malloc returns a block. -/
inductive FpAction (τ : Type*)
  | call (t : τ) (call : FpCall)
  | work (t : τ)
  | malloc (t : τ) (newnode : Ptr)

namespace FrameHeap
variable {τ : Type*} [DecidableEq τ]

def goTo (s : FrameHeap τ) (t : τ) (loc : FpLoc) : FrameHeap τ :=
  { s with loc := Function.update s.loc t loc }

def setNode (s : FrameHeap τ) (p : Ptr) (node : Option FpNode) : FrameHeap τ :=
  { s with fp := Function.update s.fp p node }

def setList (s : FrameHeap τ) (mp : FpDevice) (p : Ptr) : FrameHeap τ :=
  { s with freeFpList := Function.update s.freeFpList mp p }

def lock (s : FrameHeap τ) (t : τ) (l : MmLock) (loc : FpLoc) : Option (FrameHeap τ) :=
  if s.holder l = none then
    some { s.goTo t loc with holder := Function.update s.holder l (some t) }
  else none

def unlock (s : FrameHeap τ) (t : τ) (l : MmLock) (loc : FpLoc) : FrameHeap τ :=
  { s.goTo t loc with holder := Function.update s.holder l none }

def crash (s : FrameHeap τ) : FrameHeap τ := { s with crashed := true }

/-- The next step of a thread in its call, `none` where it has none or waits for a lock. -/
def work (s : FrameHeap τ) (t : τ) : Option (FrameHeap τ) :=
  match s.loc t with
  | .outside => none
  | .entering call => s.lock t call.lock (.entered call)
  | .entered (.get mp) => s.lock t .mmMemphyRam (.locked mp)
  | .entered (.put mp fpn) => some (s.goTo t (.putting mp fpn (s.freeFpList mp)))
  | .locked mp => some (s.goTo t (.readList mp (s.freeFpList mp)))
  | .readList mp fp =>
      if fp = 0 then some (s.goTo t (.returning mp none))
      else
        match s.fp fp with
        | none => some s.crash
        | some node => some (s.goTo t (.readFpn mp fp node.fpn))
  | .readFpn mp fp fpn =>
      match s.fp fp with
      | none => some s.crash
      | some node => some (s.goTo t (.readNext mp fp fpn node.fpNext))
  | .readNext mp fp fpn fpNext => some ((s.goTo t (.unlinked mp fp fpn)).setList mp fpNext)
  | .unlinked mp fp fpn =>
      match s.fp fp with
      | none => some s.crash
      | some _ => some ((s.goTo t (.returning mp (some fpn))).setNode fp none)
  | .returning mp retfpn => some (s.unlock t .mmMemphyRam (.leaving (.get mp) retfpn))
  | .putting .. => none
  | .newNode mp fpn newnode =>
      some ((s.goTo t (.leaving (.put mp fpn) none)).setList mp newnode)
  | .leaving call _ => some (s.unlock t call.lock .outside)

/-- malloc in MEMPHY_put_freefp, with the writes to the node it returns. -/
def mallocNode (s : FrameHeap τ) (t : τ) (newnode : Ptr) : Option (FrameHeap τ) :=
  match s.loc t with
  | .putting mp fpn fp =>
      if newnode ≠ 0 ∧ s.fp newnode = none then
        some ((s.goTo t (.newNode mp fpn newnode)).setNode newnode (some ⟨fpn, fp⟩))
      else none
  | _ => none

def step (s : FrameHeap τ) (a : FpAction τ) : Option (FrameHeap τ) :=
  if s.crashed then none
  else
    match a with
    | .call t call => if s.loc t = .outside then some (s.goTo t (.entering call)) else none
    | .work t => s.work t
    | .malloc t newnode => s.mallocNode t newnode

/-- The event of a step, with the thread. -/
def event (s : FrameHeap τ) (a : FpAction τ) (_ : FrameHeap τ) : List (τ × FpEvent) :=
  match a with
  | .work t => (s.loc t).event.map (Prod.mk t)
  | .call .. | .malloc .. => []

end FrameHeap

/-- The call made at once, as the paging makes it. -/
def FpEvent.apply (devs : FpDevice → Memphy) : FpEvent → Option (FpDevice → Memphy)
  | .got mp retfpn =>
      match (devs mp).getFreefp, retfpn with
      | none, none => some devs
      | some (fpn, dev), some retfpn =>
          if fpn = retfpn then some (Function.update devs mp dev) else none
      | _, _ => none
  | .put mp fpn => some (Function.update devs mp ((devs mp).putFreefp fpn))

theorem FpEvent.apply_some {devs : FpDevice → Memphy} {mp : FpDevice} {fpn : Nat} {rest : List Nat}
    (free : (devs mp).freeFpList = fpn :: rest) : FpEvent.apply devs (.got mp (some fpn)) =
      some (Function.update devs mp { devs mp with freeFpList := rest }) := by
  simp [apply, Memphy.getFreefp, free]

theorem FpEvent.apply_none {devs : FpDevice → Memphy} {mp : FpDevice}
    (empty : (devs mp).freeFpList = []) : FpEvent.apply devs (.got mp none) = some devs := by
  simp [apply, Memphy.getFreefp, empty]

/-- The locks that a thread has. -/
def FpLoc.Has : FpLoc → MmLock → Prop
  | .outside, _ | .entering _, _ => False
  | .entered call, l | .leaving call _, l => l = call.lock
  | .putting mp fpn _, l | .newNode mp fpn _, l => l = (FpCall.put mp fpn).lock
  | .locked mp, l | .readList mp _, l | .readFpn mp _ _, l | .readNext mp _ _ _, l
  | .unlinked mp _ _, l | .returning mp _, l => l = .mmMemphyRam ∨ l = (FpCall.get mp).lock

/-- The lock that a thread is about to take. -/
def FpLoc.Waits : FpLoc → MmLock → Prop
  | .entering call, l => l = call.lock
  | .entered (.get _), l => l = .mmMemphyRam
  | _, _ => False

/-- The order in which the locks are taken. -/
def MmLock.rank : MmLock → Nat
  | .mmMemphyRam => 1
  | .mmRam | .mmVmRam | .mmVmSwap => 0

theorem MmLock.rank_le (l : MmLock) : l.rank ≤ 1 := by
  cases l <;> decide

theorem FpLoc.waits_above (loc : FpLoc) (l k : MmLock) (waits : loc.Waits l) (has : loc.Has k) :
    k.rank < l.rank := by
  cases loc with
  | entering call => cases has
  | entered call =>
      cases call with
      | get mp =>
          obtain rfl := waits
          obtain rfl := has
          cases mp with
          | mram => exact Nat.zero_lt_one
          | mswp k => exact Nat.zero_lt_one
      | put mp fpn => cases waits
  | _ => cases waits

/-- The thread relies on the list to be the one it has read. -/
def FpLoc.Uses (mp : FpDevice) : FpLoc → Prop
  | .readList dev _ | .readFpn dev _ _ | .readNext dev _ _ _ | .putting dev _ _
  | .newNode dev _ _ => dev = mp
  | _ => False

/-- Whose a node is: a device's, on whose list it is, or a thread's. -/
inductive FpOwner (τ : Type*)
  | list (mp : FpDevice)
  | thread (t : τ)

namespace FrameHeap
variable {τ : Type*}

def next (s : FrameHeap τ) (p : Ptr) : Ptr := ((s.fp p).map FpNode.fpNext).getD 0

def fpn (s : FrameHeap τ) (p : Ptr) : Nat := ((s.fp p).map FpNode.fpn).getD 0

/-- The list is made of the device's nodes, with these frames. -/
def Listed (s : FrameHeap τ) (owner : Ptr → Option (FpOwner τ)) (mp : FpDevice)
    (fpns : List Nat) : Prop :=
  ∃ nodes, Owned 0 s.next (fun q => owner q = some (.list mp)) (fun _ => False) (s.freeFpList mp)
    nodes ∧ nodes.map s.fpn = fpns

/-- What a thread may rely on where it is, if nothing is put on the list of `mram`. -/
def At (s : FrameHeap τ) (owner : Ptr → Option (FpOwner τ)) (t : τ) : FpLoc → Prop
  | .entering (.put mp _) | .entered (.put mp _) => mp ≠ .mram
  | .readList mp fp => s.freeFpList mp = fp
  | .readFpn mp fp fpn =>
      s.freeFpList mp = fp ∧ owner fp = some (.list mp) ∧ s.fpn fp = fpn
  | .readNext mp fp fpn fpNext => s.freeFpList mp = fp ∧ owner fp = some (.list mp) ∧
      s.fpn fp = fpn ∧ s.next fp = fpNext
  | .unlinked _ fp _ => owner fp = some (.thread t)
  | .putting mp _ fp => mp ≠ .mram ∧ s.freeFpList mp = fp
  | .newNode mp fpn newnode => mp ≠ .mram ∧ newnode ≠ 0 ∧
      owner newnode = some (.thread t) ∧ s.fp newnode = some ⟨fpn, s.freeFpList mp⟩
  | _ => True

/-- The memory shows the devices, and each thread is where it may be. -/
structure Whole (s : FrameHeap τ) (owner : Ptr → Option (FpOwner τ))
    (devs : FpDevice → Memphy) : Prop where
  sound : s.crashed = false
  locks : Locks.Recorded s.holder FpLoc.Has s.loc
  live : ∀ q o, owner q = some o → (s.fp q).isSome
  list : ∀ mp, s.Listed owner mp (devs mp).freeFpList
  place : ∀ t, s.At owner t (s.loc t)

/-- The lock that keeps others from the list, as long as nothing is put on that of `mram`. -/
def guard : FpDevice → MmLock
  | .mram => .mmMemphyRam
  | .mswp _ => .mmVmSwap

section Frames
variable {s s' : FrameHeap τ} {owner owner' : Ptr → Option (FpOwner τ)} {t u : τ}
  {devs : FpDevice → Memphy} {mp : FpDevice} {fpns : List Nat}

theorem At.has_guard {loc : FpLoc} (place : s.At owner t loc) (uses : loc.Uses mp) :
    loc.Has (guard mp) := by
  cases loc with
  | readList dev | readFpn dev | readNext dev =>
      obtain rfl := uses
      cases dev with
      | mram => exact .inl rfl
      | mswp k => exact .inr rfl
  | putting dev | newNode dev =>
      obtain rfl := uses
      cases dev with
      | mram => exact absurd rfl place.1
      | mswp k => rfl
  | _ => cases uses

/-- No two threads rely on one list. -/
theorem Whole.uses_once (whole : s.Whole owner devs) (here : (s.loc t).Uses mp)
    (there : (s.loc u).Uses mp) : t = u :=
  whole.locks.exclusive ((whole.place t).has_guard here) ((whole.place u).has_guard there)

/-- A thread that waits for a lock while it has another one waits for that of MEMPHY_get_freefp,
and has not got that one already. -/
theorem Whole.waits_in_order (whole : s.Whole owner devs) {l k : MmLock}
    (waits : (s.loc t).Waits l) (held : s.holder k = some t) :
    l = .mmMemphyRam ∧ k ≠ .mmMemphyRam := by
  have above := (s.loc t).waits_above l k waits ((whole.locks t k).mp held)
  constructor
  · cases l with
    | mmMemphyRam => rfl
    | _ => exact absurd above (Nat.not_lt_zero _)
  · rintro rfl
    exact absurd (above.trans_le l.rank_le) (lt_irrefl 1)

/-- What a thread relies on is there as long as the others leave its nodes and its list alone. -/
theorem At.frame {loc : FpLoc} (place : s.At owner t loc)
    (list : ∀ mp, loc.Uses mp → s'.freeFpList mp = s.freeFpList mp)
    (mine : ∀ q, owner q = some (.thread t) → owner' q = owner q ∧ s'.fp q = s.fp q)
    (listed : ∀ mp q, loc.Uses mp → owner q = some (.list mp) →
      owner' q = owner q ∧ s'.fp q = s.fp q) : s'.At owner' t loc := by
  cases loc with
  | entering call | entered call =>
      cases call with
      | get mp => trivial
      | put mp fpn => exact place
  | readList mp fp => exact (list mp rfl).trans place
  | readFpn mp fp fpn =>
      obtain ⟨head, own, here⟩ := place
      obtain ⟨own', same⟩ := listed mp fp rfl own
      exact ⟨(list mp rfl).trans head, own'.trans own, by rw [FrameHeap.fpn, same]; exact here⟩
  | readNext mp fp fpn fpNext =>
      obtain ⟨head, own, here, link⟩ := place
      obtain ⟨own', same⟩ := listed mp fp rfl own
      refine ⟨(list mp rfl).trans head, own'.trans own, ?_, ?_⟩
      · rw [FrameHeap.fpn, same]
        exact here
      · rw [next, same]
        exact link
  | unlinked mp fp fpn => exact (mine fp place).1.trans place
  | putting mp fpn fp => exact ⟨place.1, (list mp rfl).trans place.2⟩
  | newNode mp fpn newnode =>
      obtain ⟨other, some_node, own, here⟩ := place
      obtain ⟨own', same⟩ := mine newnode own
      exact ⟨other, some_node, own'.trans own, by rw [same, list mp rfl]; exact here⟩
  | _ => trivial

theorem next_congr {q : Ptr} (same : s'.fp q = s.fp q) : s'.next q = s.next q := by
  rw [next, next, same]

theorem fpn_congr {q : Ptr} (same : s'.fp q = s.fp q) : s'.fpn q = s.fpn q := by
  rw [FrameHeap.fpn, FrameHeap.fpn, same]

theorem Listed.frame (listed : s.Listed owner mp fpns)
    (list : s'.freeFpList mp = s.freeFpList mp)
    (same : ∀ q, owner q = some (.list mp) → s'.fp q = s.fp q)
    (owns : ∀ q, owner' q = some (.list mp) ↔ owner q = some (.list mp)) :
    s'.Listed owner' mp fpns := by
  obtain ⟨nodes, ⟨chain, own, -⟩, map⟩ := listed
  have kept : ∀ q ∈ nodes, s'.fp q = s.fp q := fun q member => same q ((own q).mpr (.inl member))
  refine ⟨nodes, ⟨?_, fun q => (owns q).trans (own q), fun _ _ => id⟩, ?_⟩
  · rw [list]
    exact chain.congr fun q member => next_congr (kept q member)
  · rw [← map]
    exact List.map_congr_left fun q member => fpn_congr (kept q member)

theorem Listed.empty (listed : s.Listed owner mp fpns) (null : s.freeFpList mp = 0) :
    fpns = [] := by
  obtain ⟨row, ⟨chain, -, -⟩, rfl⟩ := listed
  rw [null, chain_null] at chain
  rw [chain, List.map_nil]

theorem Listed.head (listed : s.Listed owner mp fpns) (some_node : s.freeFpList mp ≠ 0) :
    owner (s.freeFpList mp) = some (.list mp) := by
  obtain ⟨row, owned, -⟩ := listed
  obtain ⟨rest, rfl, -⟩ := (chain_iff some_node).mp owned.chain
  exact (owned.used _).mpr (.inl List.mem_cons_self)

/-- The list without its first node. -/
theorem Listed.pop (listed : s.Listed owner mp fpns) {fp : Ptr} (head : s.freeFpList mp = fp)
    (own : owner fp = some (.list mp)) (nodes : s'.fp = s.fp) (list : s'.freeFpList mp = s.next fp)
    (owns : ∀ q, owner' q = some (.list mp) ↔ q ≠ fp ∧ owner q = some (.list mp)) :
    ∃ rest, fpns = s.fpn fp :: rest ∧ s'.Listed owner' mp rest := by
  subst head
  obtain ⟨row, owned, rfl⟩ := listed
  have next : s'.next = s.next := funext fun q => next_congr (congrFun nodes q)
  have fpn : s'.fpn = s.fpn := funext fun q => fpn_congr (congrFun nodes q)
  cases row with
  | nil => cases ((owned.used _).mp own).elim List.not_mem_nil id
  | cons first rest =>
      obtain rfl := owned.chain.2.1
      obtain ⟨-, later⟩ := owned.pop (fun _ _ => congrFun next _) owns
      exact ⟨rest.map s.fpn, rfl, rest, by rw [list]; exact later, by rw [fpn]⟩

/-- The list with a new first node. -/
theorem Listed.push (listed : s.Listed owner mp fpns) {node : Ptr} {fpn : Nat}
    (some_node : node ≠ 0) (fresh : owner node ≠ some (.list mp))
    (held : s.fp node = some ⟨fpn, s.freeFpList mp⟩) (nodes : s'.fp = s.fp)
    (list : s'.freeFpList mp = node)
    (owns : ∀ q, owner' q = some (.list mp) ↔ q = node ∨ owner q = some (.list mp)) :
    s'.Listed owner' mp (fpn :: fpns) := by
  obtain ⟨row, owned, rfl⟩ := listed
  have next : s'.next = s.next := funext fun q => next_congr (congrFun nodes q)
  have same : s'.fpn = s.fpn := funext fun q => fpn_congr (congrFun nodes q)
  have link : s.next node = s.freeFpList mp := by
    rw [FrameHeap.next, held]
    rfl
  refine ⟨node :: row, ?_, ?_⟩
  · rw [list, next]
    exact owned.push some_node fresh link (fun _ _ => rfl) owns
  · rw [same, List.map_cons, FrameHeap.fpn, held]
    rfl

/-- A step in which a thread changes one node, its own or one of a list it relies on, and perhaps
that list. -/
structure Touches (s : FrameHeap τ) (owner : Ptr → Option (FpOwner τ)) (t : τ) (node : Ptr)
    (s' : FrameHeap τ) (owner' : Ptr → Option (FpOwner τ)) : Prop where
  elsewhere : ∀ q ≠ node, owner' q = owner q ∧ s'.fp q = s.fp q
  mine : ∀ u, owner node = some (.thread u) → u = t
  listed : ∀ mp, owner node = some (.list mp) → (s.loc t).Uses mp
  lists : ∀ mp, ¬ (s.loc t).Uses mp → s'.freeFpList mp = s.freeFpList mp

variable {node : Ptr}

theorem Touches.others (touches : s.Touches owner t node s' owner') (whole : s.Whole owner devs)
    (other : u ≠ t) : s'.At owner' u (s.loc u) := by
  refine (whole.place u).frame (fun mp uses => touches.lists mp fun here => ?_) (fun q own => ?_)
    fun mp q uses own => ?_
  · exact other (whole.uses_once uses here)
  · refine touches.elsewhere q fun same => other (touches.mine u ?_)
    rw [← same, own]
  · refine touches.elsewhere q fun same => other (whole.uses_once uses (touches.listed mp ?_))
    rw [← same, own]

/-- A list that the node neither was on nor is on now. -/
theorem Touches.list (touches : s.Touches owner t node s' owner') (listed : s.Listed owner mp fpns)
    (was : owner node ≠ some (.list mp)) (is : owner' node ≠ some (.list mp))
    (list : s'.freeFpList mp = s.freeFpList mp) : s'.Listed owner' mp fpns := by
  refine listed.frame list (fun q own => (touches.elsewhere q fun same => ?_).2) fun q => ?_
  · exact was (same ▸ own)
  · by_cases same : q = node
    · subst same
      exact iff_of_false is was
    · rw [(touches.elsewhere q same).1]

theorem Touches.live (touches : s.Touches owner t node s' owner') (whole : s.Whole owner devs)
    (here : ∀ o, owner' node = some o → (s'.fp node).isSome) (q : Ptr) (o : FpOwner τ)
    (own : owner' q = some o) : (s'.fp q).isSome := by
  by_cases same : q = node
  · subst same
    exact here o own
  · obtain ⟨same_owner, same_node⟩ := touches.elsewhere q same
    rw [same_node]
    exact whole.live q o (same_owner ▸ own)

theorem Whole.place_at (whole : s.Whole owner devs) {loc : FpLoc} (here : s.loc t = loc) :
    s.At owner t loc := here ▸ whole.place t

variable [DecidableEq τ]

/-- A step in which a thread only goes on, and perhaps takes or gives back a lock. -/
theorem Whole.quiet (whole : s.Whole owner devs) {loc : FpLoc} {holder : MmLock → Option τ}
    (locks : Locks.Recorded holder FpLoc.Has (Function.update s.loc t loc))
    (place : s.At owner t loc) :
    Whole { s with holder, loc := Function.update s.loc t loc } owner devs where
  sound := whole.sound
  locks := locks
  live := whole.live
  list mp := (whole.list mp).frame rfl (fun _ _ => rfl) fun _ => Iff.rfl
  place u := by
    have same : ∀ loc, s.At owner u loc →
        At { s with holder, loc := Function.update s.loc t loc } owner u loc := fun loc place =>
      place.frame (fun _ _ => rfl) (fun _ _ => ⟨rfl, rfl⟩) fun _ _ _ _ => ⟨rfl, rfl⟩
    by_cases own : u = t
    · subst own
      dsimp only
      rw [Function.update_self]
      exact same loc place
    · dsimp only
      rw [Function.update_of_ne own]
      exact (whole.place u).frame (fun _ _ => rfl) (fun _ _ => ⟨rfl, rfl⟩) fun _ _ _ _ => ⟨rfl, rfl⟩

/-- The locks that a thread has do not change between two places. -/
theorem Whole.same_locks (whole : s.Whole owner devs) {old new : FpLoc} (here : s.loc t = old)
    (same : ∀ l, new.Has l ↔ old.Has l) :
    Locks.Recorded s.holder FpLoc.Has (Function.update s.loc t new) :=
  whole.locks.move fun l => (same l).trans (by rw [here])

theorem Touches.place (touches : s.Touches owner t node s' owner') (whole : s.Whole owner devs)
    {loc : FpLoc} (goes : s'.loc = Function.update s.loc t loc) (here : s'.At owner' t loc)
    (u : τ) :
    s'.At owner' u (s'.loc u) := by
  rw [goes]
  by_cases own : u = t
  · subst own
    rwa [Function.update_self]
  · rw [Function.update_of_ne own]
    exact touches.others whole own

/-- MEMPHY_get_freefp takes the first node off the list. -/
theorem Whole.unlink (whole : s.Whole owner devs) {fp fpNext : Ptr} {fpn : Nat}
    (here : s.loc t = .readNext mp fp fpn fpNext) : ∃ rest,
      (devs mp).freeFpList = fpn :: rest ∧
      Whole ((s.goTo t (.unlinked mp fp fpn)).setList mp fpNext)
        (Function.update owner fp (some (.thread t)))
        (Function.update devs mp { devs mp with freeFpList := rest }) := by
  obtain ⟨head, own, value, next⟩ := whole.place_at here
  let s' := (s.goTo t (.unlinked mp fp fpn)).setList mp fpNext
  have link : s'.freeFpList mp = s.next fp := (Function.update_self ..).trans next.symm
  have uses : (s.loc t).Uses mp := by
    rw [here]
    rfl
  have touches : s.Touches owner t fp s' (Function.update owner fp (some (.thread t))) := by
    refine ⟨fun q other => ⟨Function.update_of_ne other _ _, rfl⟩, fun u mine => ?_,
      fun dev listed => ?_, fun dev apart => Function.update_of_ne ?_ _ _⟩
    · cases own.symm.trans mine
    · rwa [← FpOwner.list.inj (Option.some.inj (own.symm.trans listed))]
    · rintro rfl
      exact apart uses
  have owns : ∀ q, Function.update owner fp (some (.thread t)) q = some (.list mp) ↔
      q ≠ fp ∧ owner q = some (.list mp) := by
    intro q
    rw [Function.update_apply]
    by_cases same : q = fp <;> simp [same]
  have pops : ∃ rest, (devs mp).freeFpList = s.fpn fp :: rest ∧
      s'.Listed (Function.update owner fp (some (.thread t))) mp rest :=
    (whole.list mp).pop head own rfl link owns
  obtain ⟨rest, frames, popped⟩ := pops
  rw [value] at frames
  refine ⟨rest, frames, whole.sound, whole.same_locks here fun l => Iff.rfl,
    touches.live whole fun o _ => whole.live fp _ own, fun dev => ?_,
    touches.place whole rfl (Function.update_self ..)⟩
  by_cases same : dev = mp
  · subst same
    rw [Function.update_self]
    exact popped
  · rw [Function.update_of_ne same]
    refine touches.list (whole.list dev) (fun listed => ?_) (fun listed => ?_)
      (Function.update_of_ne same _ _)
    · exact same (FpOwner.list.inj (Option.some.inj (own.symm.trans listed))).symm
    · rw [Function.update_self] at listed
      cases listed

/-- The node that was taken off is freed. -/
theorem Whole.free (whole : s.Whole owner devs) {fp : Ptr} {fpn : Nat}
    (here : s.loc t = .unlinked mp fp fpn) : (s.fp fp).isSome ∧
      Whole ((s.goTo t (.returning mp (some fpn))).setNode fp none) (Function.update owner fp none)
        devs := by
  have own : owner fp = some (.thread t) := whole.place_at here
  have touches : s.Touches owner t fp ((s.goTo t (.returning mp (some fpn))).setNode fp none)
      (Function.update owner fp none) := by
    refine ⟨fun q other => ⟨Function.update_of_ne other _ _, Function.update_of_ne other _ _⟩,
      fun u mine => ?_, fun dev listed => ?_, fun _ _ => rfl⟩
    · exact (FpOwner.thread.inj (Option.some.inj (own.symm.trans mine))).symm
    · cases own.symm.trans listed
  have nobody : Function.update owner fp none fp = none := Function.update_self ..
  refine ⟨whole.live fp _ own, whole.sound, whole.same_locks here fun l => Iff.rfl,
    touches.live whole fun o mine => ?_, fun dev => ?_, touches.place whole rfl trivial⟩
  · rw [nobody] at mine
    cases mine
  · refine touches.list (whole.list dev) (fun listed => ?_) (fun listed => ?_) rfl
    · cases own.symm.trans listed
    · rw [nobody] at listed
      cases listed

/-- MEMPHY_put_freefp has a new node. -/
theorem Whole.malloc (whole : s.Whole owner devs) {fp newnode : Ptr} {fpn : Nat}
    (here : s.loc t = .putting mp fpn fp) (some_node : newnode ≠ 0) (fresh : s.fp newnode = none) :
    Whole ((s.goTo t (.newNode mp fpn newnode)).setNode newnode (some ⟨fpn, fp⟩))
      (Function.update owner newnode (some (.thread t))) devs := by
  obtain ⟨swap, head⟩ := whole.place_at here
  have unowned : owner newnode = none := by
    cases own : owner newnode with
    | none => rfl
    | some o =>
        have live := whole.live newnode o own
        rw [fresh] at live
        cases live
  have touches : s.Touches owner t newnode
      ((s.goTo t (.newNode mp fpn newnode)).setNode newnode (some ⟨fpn, fp⟩))
      (Function.update owner newnode (some (.thread t))) := by
    refine ⟨fun q other => ⟨Function.update_of_ne other _ _, Function.update_of_ne other _ _⟩,
      fun u mine => ?_, fun dev listed => ?_, fun _ _ => rfl⟩
    · cases unowned.symm.trans mine
    · cases unowned.symm.trans listed
  refine ⟨whole.sound, whole.same_locks here fun l => Iff.rfl, touches.live whole fun o _ => ?_,
    fun dev => ?_, touches.place whole rfl ⟨swap, some_node, Function.update_self _ _ owner, ?_⟩⟩
  · rw [show ((s.goTo t (.newNode mp fpn newnode)).setNode newnode (some ⟨fpn, fp⟩)).fp newnode =
      some ⟨fpn, fp⟩ from Function.update_self ..]
    rfl
  · refine touches.list (whole.list dev) (fun listed => ?_) (fun listed => ?_) rfl
    · cases unowned.symm.trans listed
    · rw [Function.update_self] at listed
      cases listed
  · rw [← head]
    exact Function.update_self ..

/-- MEMPHY_put_freefp puts its node on the list. -/
theorem Whole.link (whole : s.Whole owner devs) {newnode : Ptr} {fpn : Nat}
    (here : s.loc t = .newNode mp fpn newnode) :
    Whole ((s.goTo t (.leaving (.put mp fpn) none)).setList mp newnode)
      (Function.update owner newnode (some (.list mp)))
      (Function.update devs mp ((devs mp).putFreefp fpn)) := by
  obtain ⟨swap, some_node, own, held⟩ := whole.place_at here
  let s' := (s.goTo t (.leaving (.put mp fpn) none)).setList mp newnode
  have uses : (s.loc t).Uses mp := by
    rw [here]
    rfl
  have touches : s.Touches owner t newnode s'
      (Function.update owner newnode (some (.list mp))) := by
    refine ⟨fun q other => ⟨Function.update_of_ne other _ _, rfl⟩, fun u mine => ?_,
      fun dev listed => ?_, fun dev apart => Function.update_of_ne ?_ _ _⟩
    · exact (FpOwner.thread.inj (Option.some.inj (own.symm.trans mine))).symm
    · cases own.symm.trans listed
    · rintro rfl
      exact apart uses
  have owns : ∀ q, Function.update owner newnode (some (.list mp)) q = some (.list mp) ↔
      q = newnode ∨ owner q = some (.list mp) := by
    intro q
    rw [Function.update_apply]
    by_cases same : q = newnode <;> simp [same]
  have fresh : owner newnode ≠ some (.list mp) := fun listed => by cases own.symm.trans listed
  have pushed : s'.Listed (Function.update owner newnode (some (.list mp))) mp
      (fpn :: (devs mp).freeFpList) :=
    (whole.list mp).push some_node fresh held rfl (Function.update_self ..) owns
  refine ⟨whole.sound, whole.same_locks here fun l => Iff.rfl,
    touches.live whole fun o _ => whole.live newnode _ own, fun dev => ?_,
    touches.place whole rfl trivial⟩
  by_cases same : dev = mp
  · subst same
    rw [Function.update_self]
    exact pushed
  · rw [Function.update_of_ne same]
    refine touches.list (whole.list dev) (fun listed => ?_) (fun listed => ?_)
      (Function.update_of_ne same _ _)
    · cases own.symm.trans listed
    · rw [Function.update_self] at listed
      exact same (FpOwner.list.inj (Option.some.inj listed)).symm

theorem lock_some {l : MmLock} {loc : FpLoc} (h : s.lock t l loc = some s') :
    s.holder l = none ∧
      s' = { s with
        holder := Function.update s.holder l (some t), loc := Function.update s.loc t loc } := by
  obtain ⟨free, same⟩ := Option.ite_none_right_eq_some.mp h
  exact ⟨free, (Option.some.inj same).symm⟩

/-- The step lemma, one case for each place of a thread. -/
theorem Whole.work (whole : s.Whole owner devs) (h : s.work t = some s') :
    ∃ owner' devs', run FpEvent.apply devs (s.loc t).event = some devs' ∧
      s'.Whole owner' devs' := by
  unfold FrameHeap.work at h
  cases here : s.loc t with
  | outside | putting =>
      rw [here] at h
      cases h
  | entering call =>
      rw [here] at h
      obtain ⟨free, rfl⟩ := lock_some h
      refine ⟨owner, devs, rfl, whole.quiet (whole.locks.acquire free fun l => ?_) ?_⟩
      · rw [here]
        exact (or_iff_left id).symm
      · cases call with
        | get mp => trivial
        | put mp fpn =>
            have swap : mp ≠ .mram := whole.place_at here
            exact swap
  | entered call =>
      rw [here] at h
      cases call with
      | get mp =>
          obtain ⟨free, rfl⟩ := lock_some h
          refine ⟨owner, devs, rfl, whole.quiet (whole.locks.acquire free fun l => ?_) trivial⟩
          rw [here]
          rfl
      | put mp fpn =>
          obtain rfl := Option.some.inj h
          have swap := whole.place_at here
          exact ⟨owner, devs, rfl, whole.quiet (whole.same_locks here fun l => Iff.rfl) ⟨swap, rfl⟩⟩
  | locked mp =>
      rw [here] at h
      obtain rfl := Option.some.inj h
      exact ⟨owner, devs, rfl, whole.quiet (whole.same_locks here fun l => Iff.rfl) rfl⟩
  | readList mp fp =>
      rw [here] at h
      have head : s.freeFpList mp = fp := whole.place_at here
      dsimp only at h
      rw [FpLoc.event]
      by_cases none : fp = 0
      · rw [if_pos none] at h ⊢
        obtain rfl := Option.some.inj h
        rw [run_cons, FpEvent.apply_none ((whole.list mp).empty (head.trans none))]
        exact ⟨owner, devs, rfl, whole.quiet (whole.same_locks here fun l => Iff.rfl) trivial⟩
      · rw [if_neg none] at h ⊢
        have own := (whole.list mp).head (head ▸ none)
        rw [head] at own
        obtain ⟨node, held⟩ := Option.isSome_iff_exists.mp (whole.live fp _ own)
        rw [held] at h
        obtain rfl := Option.some.inj h
        refine ⟨owner, devs, rfl, whole.quiet (whole.same_locks here fun l => Iff.rfl)
          ⟨head, own, ?_⟩⟩
        rw [fpn, held]
        rfl
  | readFpn mp fp fpn =>
      rw [here] at h
      obtain ⟨head, own, value⟩ := whole.place_at here
      obtain ⟨node, held⟩ := Option.isSome_iff_exists.mp (whole.live fp _ own)
      dsimp only at h
      rw [held] at h
      obtain rfl := Option.some.inj h
      refine ⟨owner, devs, rfl, whole.quiet (whole.same_locks here fun l => Iff.rfl)
        ⟨head, own, value, ?_⟩⟩
      rw [next, held]
      rfl
  | readNext mp fp fpn fpNext =>
      rw [here] at h
      obtain ⟨rest, frames, after⟩ := whole.unlink here
      obtain rfl := Option.some.inj h
      refine ⟨_, _, ?_, after⟩
      rw [FpLoc.event, run_cons, FpEvent.apply_some frames]
      rfl
  | unlinked mp fp fpn =>
      rw [here] at h
      obtain ⟨held, after⟩ := whole.free here
      obtain ⟨node, held⟩ := Option.isSome_iff_exists.mp held
      dsimp only at h
      rw [held] at h
      obtain rfl := Option.some.inj h
      exact ⟨_, devs, rfl, after⟩
  | returning mp retfpn =>
      rw [here] at h
      obtain rfl := Option.some.inj h
      refine ⟨owner, devs, rfl, whole.quiet (whole.locks.release ?_ fun l => ?_) trivial⟩
      · rw [here]
        exact .inl rfl
      · rw [here]
        constructor
        · rintro rfl
          exact ⟨(FpCall.get mp).lock_ne, .inr rfl⟩
        · rintro ⟨other, same⟩
          exact same.resolve_left other
  | newNode mp fpn newnode =>
      rw [here] at h
      obtain rfl := Option.some.inj h
      exact ⟨_, _, rfl, whole.link here⟩
  | leaving call retfpn =>
      rw [here] at h
      obtain rfl := Option.some.inj h
      refine ⟨owner, devs, rfl, whole.quiet (whole.locks.release ?_ fun l => ?_) trivial⟩
      · rw [here]
        rfl
      · rw [here]
        exact iff_of_false id fun gone => gone.1 gone.2

/-- The step lemma for all actions but the calls that put a frame on the list of `mram`. -/
theorem Whole.step (whole : s.Whole owner devs) {a : FpAction τ} (h : s.step a = some s')
    (apart : ∀ t fpn, a ≠ .call t (.put .mram fpn)) :
    ∃ owner' devs', run FpEvent.apply devs ((s.event a s').map Prod.snd) = some devs' ∧
      s'.Whole owner' devs' := by
  unfold FrameHeap.step at h
  rw [whole.sound, if_neg Bool.false_ne_true] at h
  cases a with
  | call t call =>
      obtain ⟨here, same⟩ := Option.ite_none_right_eq_some.mp h
      obtain rfl := Option.some.inj same
      refine ⟨owner, devs, rfl, whole.quiet (whole.same_locks here fun l => Iff.rfl) ?_⟩
      cases call with
      | get mp => trivial
      | put mp fpn =>
          rintro rfl
          exact apart t fpn rfl
  | work t =>
      obtain ⟨owner', devs', applied, after⟩ := whole.work h
      refine ⟨owner', devs', ?_, after⟩
      rwa [event, List.map_map, show Prod.snd ∘ Prod.mk t = id from rfl, List.map_id]
  | malloc t newnode =>
      have h : s.mallocNode t newnode = some s' := h
      unfold mallocNode at h
      cases here : s.loc t with
      | putting mp fpn fp =>
          rw [here] at h
          obtain ⟨⟨some_node, fresh⟩, same⟩ := Option.ite_none_right_eq_some.mp h
          obtain rfl := Option.some.inj same
          exact ⟨_, devs, rfl, whole.malloc here some_node fresh⟩
      | _ =>
          rw [here] at h
          cases h

end Frames
end FrameHeap
end OsSim
