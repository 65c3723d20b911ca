import OsSim.InitMm
import OsSim.Machine

/-! The devices of timer.c as the list that is in memory: attach_event puts one in front, as long
as the timer has not been started, and stop_timer frees them all. -/
namespace OsSim
open Linked Transition

/-- `struct timer_id_container_t` without its locks. -/
structure Container where
  done : Bool
  fsh : Bool
  next : Ptr

/-- The blocks that are allocated, `none` for one that is not, and the globals of timer.c. -/
structure TimerHeap where
  node : Ptr → Option Container
  devList : Ptr
  timerStarted : Bool

namespace TimerHeap

def setNode (s : TimerHeap) (p : Ptr) (node : Option Container) : TimerHeap :=
  { s with node := Function.update s.node p node }

/-- attach_event with what malloc returns: the device or NULL, and `none` where it writes
through NULL. -/
def attachEvent (s : TimerHeap) (container : Ptr) : Option (Ptr × TimerHeap) :=
  if s.timerStarted then some (0, s)
  else if container = 0 then none
  else if s.devList = 0 then
    some (container, { s.setNode container (some ⟨false, false, 0⟩) with devList := container })
  else
    some (container,
      { s.setNode container (some ⟨false, false, s.devList⟩) with devList := container })

/-- The loop of stop_timer; `none` where it follows a pointer into a block that is not
allocated, or does not come to its end in so many rounds. -/
def freeDevs : (fuel : Nat) → TimerHeap → Option TimerHeap
  | 0, s => if s.devList = 0 then some s else none
  | fuel + 1, s =>
      if s.devList = 0 then some s
      else do
        let temp ← s.node s.devList
        freeDevs fuel { s.setNode s.devList none with devList := temp.next }

def startTimer (s : TimerHeap) : TimerHeap := { s with timerStarted := true }

/-- What main does before it creates the threads: a device for each CPU, one for the loader, and
the timer is started. -/
def attachDevices {n : Nat} (s : TimerHeap) (block : Thread n → Ptr) : Option TimerHeap := do
  let s ← (List.finRange n).foldlM (fun s c => (s.attachEvent (block (.cpu c))).map Prod.snd) s
  let (_, s) ← s.attachEvent (block .loader)
  return s.startTimer

def next (s : TimerHeap) (p : Ptr) : Ptr := ((s.node p).map Container.next).getD 0

def Live (s : TimerHeap) (p : Ptr) : Prop := (s.node p).isSome

/-- The memory holds these devices, and other blocks. -/
def Holds (others : Ptr → Prop) (s : TimerHeap) (devs : List Ptr) : Prop :=
  Owned 0 s.next s.Live others s.devList devs

/-- The threads change `done` and `fsh` of the devices. -/
def SameLinks (s s' : TimerHeap) : Prop :=
  s'.devList = s.devList ∧ ∀ p, (s'.node p).map Container.next = (s.node p).map Container.next

section Steps
variable {others : Ptr → Prop} {s s' : TimerHeap} {devs : List Ptr} {container : Ptr}

theorem setNode_node (s : TimerHeap) (p : Ptr) (node : Option Container) (q : Ptr) :
    (s.setNode p node).node q = if q = p then node else s.node q :=
  Function.update_apply s.node p node q

theorem setNode_next (s : TimerHeap) {p q : Ptr} (other : q ≠ p) (node : Option Container) :
    (s.setNode p node).next q = s.next q := by
  rw [next, setNode_node, if_neg other, next]

theorem setNode_some (s : TimerHeap) (p : Ptr) (node : Container) (q : Ptr) :
    (s.setNode p (some node)).Live q ↔ q = p ∨ s.Live q := by
  rw [Live, setNode_node]
  by_cases same : q = p <;> simp [same, Live]

theorem setNode_none (s : TimerHeap) (p q : Ptr) :
    (s.setNode p none).Live q ↔ q ≠ p ∧ s.Live q := by
  rw [Live, setNode_node]
  by_cases same : q = p <;> simp [same, Live]

/-- Both branches of attach_event link the device to the list there was. -/
theorem attachEvent_eq (waiting : s.timerStarted = false) (some_block : container ≠ 0) :
    s.attachEvent container = some (container,
      { s.setNode container (some ⟨false, false, s.devList⟩) with devList := container }) := by
  rw [attachEvent, waiting, if_neg Bool.false_ne_true, if_neg some_block]
  split
  · rename_i empty
    rw [empty]
  · rfl

theorem Holds.attach (holds : s.Holds others devs) (waiting : s.timerStarted = false)
    (some_block : container ≠ 0) (unused : container ∉ devs ∧ ¬ others container) :
    ∃ s', s.attachEvent container = some (container, s') ∧ s'.Holds others (container :: devs) ∧
      s'.timerStarted = false := by
  have free : ¬ s.Live container := fun live =>
    ((holds.used container).mp live).elim unused.1 unused.2
  refine ⟨_, attachEvent_eq waiting some_block, ?_, waiting⟩
  refine Owned.push holds some_block free ?_ (fun q other => s.setNode_next other _)
    (s.setNode_some container _)
  change (Option.map Container.next ((s.setNode container _).node container)).getD 0 = _
  rw [setNode_node, if_pos rfl]
  rfl

/-- The loop of main, by induction on the CPUs that are left. -/
theorem Holds.attachAll {ι : Type*} {block : ι → Ptr} (holds : s.Holds others devs)
    (waiting : s.timerStarted = false) (some_blocks : ∀ i, block i ≠ 0) {is : List ι}
    (apart : (is.map block).Nodup) (unused : ∀ i ∈ is, block i ∉ devs ∧ ¬ others (block i)) :
    ∃ s', is.foldlM (fun s i => (s.attachEvent (block i)).map Prod.snd) s = some s' ∧
      s'.Holds others ((is.map block).reverse ++ devs) ∧ s'.timerStarted = false := by
  induction is generalizing s devs with
  | nil => exact ⟨s, rfl, holds, waiting⟩
  | cons i is ih =>
      obtain ⟨once, apart⟩ := List.nodup_cons.mp apart
      obtain ⟨s₁, attached, holds₁, waiting₁⟩ :=
        holds.attach waiting (some_blocks i) (unused i List.mem_cons_self)
      have later : ∀ j ∈ is, block j ∉ block i :: devs ∧ ¬ others (block j) := by
        intro j member
        obtain ⟨away, free⟩ := unused j (List.mem_cons_of_mem _ member)
        refine ⟨List.not_mem_cons_of_ne_of_not_mem (fun same => once ?_) away, free⟩
        exact same ▸ List.mem_map_of_mem member
      obtain ⟨s', rest, holds', waiting'⟩ := ih holds₁ waiting₁ apart later
      refine ⟨s', ?_, ?_, waiting'⟩
      · rw [List.foldlM_cons, attached]
        exact rest
      · rw [List.map_cons, List.reverse_cons, List.append_assoc]
        exact holds'

theorem Holds.congr (holds : s.Holds others devs) (same : s.SameLinks s') :
    s'.Holds others devs := by
  obtain ⟨head, node⟩ := same
  have next : s'.next = s.next := funext fun p => congrArg (Option.getD · 0) (node p)
  have live : ∀ p, s'.Live p ↔ s.Live p := by
    intro p
    rw [Live, Live, ← Option.isSome_map (f := Container.next), node p, Option.isSome_map]
  refine ⟨?_, fun q => (live q).trans (holds.used q), holds.apart⟩
  rw [head, next]
  exact holds.chain

/-- The loop of stop_timer, by induction on the devices that are left. -/
theorem Holds.freeDevs (holds : s.Holds others devs) {fuel : Nat} (enough : devs.length ≤ fuel) :
    ∃ s', s.freeDevs fuel = some s' ∧ s'.Holds others [] := by
  induction devs generalizing s fuel with
  | nil =>
      have empty : s.devList = 0 := holds.chain
      refine ⟨s, ?_, holds⟩
      cases fuel with
      | zero => exact if_pos empty
      | succ fuel => exact if_pos empty
  | cons dev devs ih =>
      have some_dev : s.devList ≠ 0 := holds.chain.1
      have popped : s.Live s.devList ∧ Owned 0 (s.setNode s.devList none).next
          (s.setNode s.devList none).Live others (s.next s.devList) devs :=
        Owned.pop holds (fun q other => s.setNode_next other none) (s.setNode_none s.devList)
      obtain ⟨live, rest⟩ := popped
      obtain ⟨temp, here⟩ := Option.isSome_iff_exists.mp live
      have link : s.next s.devList = temp.next := by
        rw [next, here]
        rfl
      cases fuel with
      | zero => cases enough
      | succ fuel =>
          obtain ⟨s', freed, holds'⟩ :=
            @ih { s.setNode s.devList none with devList := s.next s.devList } rest fuel
              (Nat.le_of_succ_le_succ enough)
          refine ⟨s', ?_, holds'⟩
          rw [TimerHeap.freeDevs, if_neg some_dev, here, ← freed, link]
          rfl

/-- The list of devices from main on. Its attaches put the CPUs and the loader into the order in
which timer_routine goes through them; once the timer is started no device joins; and whatever the
threads do to the devices, stop_timer frees each of them once, no other block, and comes to its
end. -/
theorem main_devices {n : Nat} {block : Thread n → Ptr} (some_blocks : ∀ t, block t ≠ 0)
    (apart : Function.Injective block) (unused : ∀ t, ¬ s.Live (block t))
    (empty : s.devList = 0) (waiting : s.timerStarted = false) :
    ∃ s₁, s.attachDevices block = some s₁ ∧
      Chain 0 s₁.next s₁.devList ((OsSim.devList n).devs.map block) ∧
      (∀ container, s₁.attachEvent container = some (0, s₁)) ∧
      ∀ s₂, s₁.SameLinks s₂ → ∀ fuel, n + 1 ≤ fuel →
        ∃ s₃, s₂.freeDevs fuel = some s₃ ∧ s₃.devList = 0 ∧ ∀ p, s₃.Live p ↔ s.Live p := by
  have start : s.Holds s.Live [] :=
    ⟨empty, fun q => (or_iff_right List.not_mem_nil).symm, List.forall_mem_nil _⟩
  have cpus_apart : ((List.finRange n).map fun c => block (.cpu c)).Nodup :=
    (List.nodup_finRange n).map fun _ _ same => Thread.cpu.inj (apart same)
  obtain ⟨s', cpus, holds', waiting'⟩ := start.attachAll waiting (fun c => some_blocks (.cpu c))
    cpus_apart fun c _ => ⟨List.not_mem_nil, unused _⟩
  rw [List.append_nil] at holds'
  have loader : block .loader ∉ ((List.finRange n).map fun c => block (.cpu c)).reverse := by
    intro member
    obtain ⟨c, -, same⟩ := List.mem_map.mp (List.mem_reverse.mp member)
    cases apart same
  obtain ⟨s₁, last, holds₁, -⟩ := holds'.attach waiting' (some_blocks .loader) ⟨loader, unused _⟩
  have order : (OsSim.devList n).devs.map block =
      block .loader :: ((List.finRange n).map fun c => block (.cpu c)).reverse := by
    rw [OsSim.devList, List.map_cons, List.map_reverse, List.map_map]
    rfl
  have holds : s₁.startTimer.Holds s.Live ((OsSim.devList n).devs.map block) := order ▸ holds₁
  refine ⟨s₁.startTimer, ?_, holds.chain, fun container => if_pos rfl,
    fun s₂ same fuel enough => ?_⟩
  · rw [attachDevices, cpus]
    dsimp only [bind, Option.bind]
    rw [last]
    rfl
  · have count : ((OsSim.devList n).devs.map block).length ≤ fuel := by
      rw [order, List.length_cons, List.length_reverse, List.length_map, List.length_finRange]
      exact enough
    obtain ⟨s₃, freed, holds₃⟩ := (holds.congr same).freeDevs count
    exact ⟨s₃, freed, holds₃.chain, fun p =>
      (holds₃.used p).trans (or_iff_right List.not_mem_nil)⟩

/-- One CPU and the loader in blocks 10 and 11, which are free again at the end. -/
theorem main_devices_one : ∃ s₁ s₃ : TimerHeap,
    attachDevices ⟨fun _ => none, 0, false⟩ (fun t : Thread 1 => if t = .loader then 11 else 10) =
      some s₁ ∧ Chain 0 s₁.next s₁.devList [11, 10] ∧ s₁.freeDevs 2 = some s₃ ∧
      ∀ p, ¬ s₃.Live p := by
  have apart : Function.Injective fun t : Thread 1 => if t = .loader then 11 else 10 := by
    intro t u same
    cases t with
    | loader =>
        cases u with
        | loader => rfl
        | cpu d => exact absurd same (by simp)
    | cpu c =>
        cases u with
        | loader => exact absurd same (by simp)
        | cpu d => rw [Subsingleton.elim c d]
  obtain ⟨s₁, attached, list, -, stops⟩ := @main_devices ⟨fun _ => none, 0, false⟩ 1 _
    (fun t => by split <;> nofun) apart (fun _ => nofun) rfl rfl
  obtain ⟨s₃, freed, -, live⟩ := stops s₁ ⟨rfl, fun _ => rfl⟩ 2 le_rfl
  exact ⟨s₁, s₃, attached, list, freed, fun p held => nomatch (live p).mp held⟩

end Steps
end TimerHeap
end OsSim
