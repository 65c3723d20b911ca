import OsSim.FrameThreads
import OsSim.InitMemphy

/-! All threads at the free lists together: as long as no frame is put on the list of `mram`, their
calls are as if each were made at once. -/
namespace OsSim
open Linked Transition

namespace FrameHeap
variable {τ : Type*} {s : FrameHeap τ} {devs : FpDevice → Memphy}

/-- No thread is in a call, and the lists, which have no node in common, show the devices. -/
structure Rests (s : FrameHeap τ) (devs : FpDevice → Memphy) (nodes : FpDevice → List Ptr) :
    Prop where
  sound : s.crashed = false
  outside : ∀ t, s.loc t = .outside
  free : ∀ l, s.holder l = none
  chain : ∀ mp, Chain 0 s.next (s.freeFpList mp) (nodes mp)
  frames : ∀ mp, (nodes mp).map s.fpn = (devs mp).freeFpList
  live : ∀ mp, ∀ q ∈ nodes mp, (s.fp q).isSome
  apart : ∀ mp dev q, q ∈ nodes mp → q ∈ nodes dev → mp = dev

open Classical in
theorem Rests.whole {nodes : FpDevice → List Ptr} (rests : s.Rests devs nodes) :
    ∃ owner, s.Whole owner devs := by
  let owner : Ptr → Option (FpOwner τ) := fun q =>
    if h : ∃ mp, q ∈ nodes mp then some (.list h.choose) else none
  have owns : ∀ q mp, owner q = some (.list mp) ↔ q ∈ nodes mp := by
    intro q mp
    by_cases listed : ∃ mp, q ∈ nodes mp
    · have own : owner q = some (.list listed.choose) := dif_pos listed
      rw [own, Option.some.injEq, FpOwner.list.injEq]
      constructor
      · rintro rfl
        exact listed.choose_spec
      · exact rests.apart _ _ q listed.choose_spec
    · have own : owner q = none := dif_neg listed
      rw [own]
      exact iff_of_false (fun some_list => by cases some_list) fun member => listed ⟨mp, member⟩
  refine ⟨owner, rests.sound, fun t l => ?_, fun q o own => ?_, fun mp => ?_, fun t => ?_⟩
  · rw [rests.outside, rests.free]
    exact iff_of_false (fun held => by cases held) id
  · by_cases listed : ∃ mp, q ∈ nodes mp
    · obtain ⟨mp, member⟩ := listed
      exact rests.live mp q member
    · rw [show owner q = none from dif_neg listed] at own
      cases own
  · exact ⟨nodes mp, ⟨rests.chain mp, fun q => (owns q mp).trans (or_iff_left id).symm,
      fun _ _ => id⟩, rests.frames mp⟩
  · rw [rests.outside]
    trivial

end FrameHeap

namespace FpEvent
variable {devs devs' : FpDevice → Memphy} {mp : FpDevice}

/-- The frame of a device that a call gets. -/
def handed (mp : FpDevice) : FpEvent → Option Nat
  | .got dev retfpn => if dev = mp then retfpn else none
  | .put .. => none

theorem apply_got {dev : FpDevice} {retfpn : Option Nat}
    (h : apply devs (.got dev retfpn) = some devs') :
    (devs dev).freeFpList = retfpn.toList ++ (devs' dev).freeFpList ∧
      ∀ mp ≠ dev, devs' mp = devs mp := by
  unfold apply Memphy.getFreefp at h
  cases free : (devs dev).freeFpList with
  | nil =>
      cases retfpn with
      | none =>
          simp only [free, Option.some.injEq] at h
          subst h
          exact ⟨free.symm, fun _ _ => rfl⟩
      | some fpn => simp [free] at h
  | cons fpn rest =>
      cases retfpn with
      | none => simp [free] at h
      | some fpn' =>
          simp only [free, Option.ite_none_right_eq_some, Option.some.injEq] at h
          obtain ⟨rfl, rfl⟩ := h
          refine ⟨?_, fun mp other => Function.update_of_ne other _ _⟩
          rw [Function.update_self]
          rfl

/-- As long as no frame is put on its list, the calls get the frames of a device from the front of
the list, each of them once. -/
theorem handed_run {events : List FpEvent} (h : run apply devs events = some devs')
    (kept : ∀ fpn, .put mp fpn ∉ events) :
    (devs mp).freeFpList = events.filterMap (handed mp) ++ (devs' mp).freeFpList := by
  induction events generalizing devs with
  | nil => exact Option.some.inj h ▸ rfl
  | cons event events ih =>
      obtain ⟨next, first, rest⟩ := Option.bind_eq_some_iff.mp h
      have later := ih rest fun fpn member => kept fpn (List.mem_cons_of_mem _ member)
      cases event with
      | got dev retfpn =>
          obtain ⟨taken, others⟩ := apply_got first
          by_cases here : dev = mp
          · subst here
            rw [taken, later]
            cases retfpn <;> simp [handed]
          · rw [← others mp (Ne.symm here), later]
            simp [handed, here]
      | put dev fpn =>
          obtain rfl := Option.some.inj first
          have other : mp ≠ dev := fun same => kept fpn (same ▸ List.mem_cons_self)
          rw [Function.update_of_ne other] at later
          rw [later, List.filterMap_cons_none rfl]

end FpEvent

/-- What the call of MEMPHY_get_freefp that a thread is in returns, once that is known. -/
def FpLoc.result : FpLoc → Option (FpDevice × Option Nat)
  | .unlinked mp _ fpn => some (mp, some fpn)
  | .returning mp retfpn | .leaving (.get mp) retfpn => some (mp, retfpn)
  | _ => none

namespace FrameHeap
variable {τ : Type*} [DecidableEq τ] {s s₀ s' : FrameHeap τ} {t : τ}
  {devs₀ devs : FpDevice → Memphy} {owner : Ptr → Option (FpOwner τ)}

/-- A step of a thread: it is where it was, or goes to a place whose result it had or gets. -/
theorem work_result (h : s.work t = some s') : s'.loc = s.loc ∨
    ∃ loc, s'.loc = Function.update s.loc t loc ∧ ∀ x, loc.result = some x →
      (s.loc t).result = some x ∨ .got x.1 x.2 ∈ (s.loc t).event := by
  unfold work at h
  cases here : s.loc t with
  | outside | putting =>
      rw [here] at h
      cases h
  | entering call =>
      rw [here] at h
      obtain ⟨-, rfl⟩ := lock_some h
      exact .inr ⟨_, rfl, fun x result => by cases result⟩
  | entered call =>
      rw [here] at h
      cases call with
      | get mp =>
          obtain ⟨-, rfl⟩ := lock_some h
          exact .inr ⟨_, rfl, fun x result => by cases result⟩
      | put mp fpn =>
          obtain rfl := Option.some.inj h
          exact .inr ⟨_, rfl, fun x result => by cases result⟩
  | locked mp =>
      rw [here] at h
      obtain rfl := Option.some.inj h
      exact .inr ⟨_, rfl, fun x result => by cases result⟩
  | readList mp fp =>
      rw [here] at h
      dsimp only at h
      split at h
      · rename_i null
        obtain rfl := Option.some.inj h
        refine .inr ⟨_, rfl, fun x result => .inr ?_⟩
        obtain rfl := Option.some.inj result
        rw [FpLoc.event, if_pos null]
        exact List.mem_singleton_self _
      · split at h
        · obtain rfl := Option.some.inj h
          exact .inl rfl
        · obtain rfl := Option.some.inj h
          exact .inr ⟨_, rfl, fun x result => by cases result⟩
  | readFpn mp fp fpn =>
      rw [here] at h
      dsimp only at h
      split at h
      · obtain rfl := Option.some.inj h
        exact .inl rfl
      · obtain rfl := Option.some.inj h
        exact .inr ⟨_, rfl, fun x result => by cases result⟩
  | readNext mp fp fpn fpNext =>
      rw [here] at h
      obtain rfl := Option.some.inj h
      refine .inr ⟨_, rfl, fun x result => .inr ?_⟩
      obtain rfl := Option.some.inj result
      exact List.mem_singleton_self _
  | unlinked mp fp fpn =>
      rw [here] at h
      dsimp only at h
      split at h
      · obtain rfl := Option.some.inj h
        exact .inl rfl
      · obtain rfl := Option.some.inj h
        exact .inr ⟨_, rfl, fun x result => .inl result⟩
  | returning mp retfpn =>
      rw [here] at h
      obtain rfl := Option.some.inj h
      exact .inr ⟨_, rfl, fun x result => .inl result⟩
  | newNode mp fpn newnode | leaving call retfpn =>
      rw [here] at h
      obtain rfl := Option.some.inj h
      exact .inr ⟨_, rfl, fun x result => by cases result⟩

theorem step_result {a : FpAction τ} (h : s.step a = some s') {u : τ} {x : FpDevice × Option Nat}
    (result : (s'.loc u).result = some x) :
    (s.loc u).result = some x ∨ (u, .got x.1 x.2) ∈ s.event a s' := by
  have moves : ∀ {t loc}, s'.loc = Function.update s.loc t loc →
      (∀ x, loc.result = some x → (s.loc t).result = some x ∨ (t, .got x.1 x.2) ∈ s.event a s') →
      (s.loc u).result = some x ∨ (u, .got x.1 x.2) ∈ s.event a s' := by
    intro t loc goes known
    rw [goes] at result
    by_cases own : u = t
    · subst own
      rw [Function.update_self] at result
      exact known x result
    · rw [Function.update_of_ne own] at result
      exact .inl result
  unfold step at h
  obtain ⟨-, h⟩ := Option.ite_none_left_eq_some.mp h
  cases a with
  | call t call =>
      obtain ⟨-, same⟩ := Option.ite_none_right_eq_some.mp h
      obtain rfl := Option.some.inj same
      exact moves rfl fun x result => by cases result
  | work t =>
      rcases work_result h with still | ⟨loc, goes, known⟩
      · exact .inl (still ▸ result)
      · refine moves goes fun x result => (known x result).imp_right fun member => ?_
        exact List.mem_map_of_mem member
  | malloc t newnode =>
      have h : s.mallocNode t newnode = some s' := h
      unfold mallocNode at h
      cases here : s.loc t with
      | putting mp fpn fp =>
          rw [here] at h
          obtain ⟨-, same⟩ := Option.ite_none_right_eq_some.mp h
          obtain rfl := Option.some.inj same
          exact moves rfl fun x result => by cases result
      | _ =>
          rw [here] at h
          cases h

omit [DecidableEq τ] in
theorem event_reverse (s : FrameHeap τ) (a : FpAction τ) (s' : FrameHeap τ) :
    (s.event a s').reverse = s.event a s' := by
  cases a with
  | call | malloc => rfl
  | work t =>
      unfold event
      rw [← List.map_reverse]
      congr 1
      unfold FpLoc.event
      split
      · split <;> rfl
      · rfl
      · rfl
      · rfl

/-- The record follows the memory: what it says of the devices is what the memory shows, and what
the calls return is in it. -/
structure Follows (devs₀ : FpDevice → Memphy) (s : FrameHeap τ) (past : List (τ × FpEvent)) :
    Prop where
  memory : ∃ owner devs, run FpEvent.apply devs₀ (past.reverse.map Prod.snd) = some devs ∧
    s.Whole owner devs
  results : ∀ t x, (s.loc t).result = some x → (t, .got x.1 x.2) ∈ past
  kept : ∀ t fpn, (t, .put .mram fpn) ∉ past

theorem Follows.step {past : List (τ × FpEvent)} (follows : s.Follows devs₀ past) {a : FpAction τ}
    (apart : ∀ t fpn, a ≠ .call t (.put .mram fpn)) (h : s.step a = some s') :
    s'.Follows devs₀ (s.event a s' ++ past) := by
  obtain ⟨owner, devs, applied, whole⟩ := follows.memory
  obtain ⟨owner', devs', applied', whole'⟩ := whole.step h apart
  refine ⟨⟨owner', devs', ?_, whole'⟩, fun t x result => ?_, fun t fpn member => ?_⟩
  · rw [List.reverse_append, event_reverse, List.map_append, run_append, applied]
    exact applied'
  · rcases step_result h result with before | now
    · exact List.mem_append_right _ (follows.results t x before)
    · exact List.mem_append_left _ now
  · rcases List.mem_append.mp member with now | before
    · cases a with
      | call | malloc => cases now
      | work u =>
          obtain ⟨e, here, same⟩ := List.mem_map.mp now
          obtain ⟨rfl, rfl⟩ := Prod.mk.inj same
          cases at_loc : s.loc u with
          | newNode mp fpn' newnode =>
              rw [at_loc] at here
              obtain ⟨rfl, rfl⟩ := FpEvent.put.inj (List.mem_singleton.mp here)
              exact (whole.place_at at_loc).1 rfl
          | readList mp fp =>
              rw [at_loc, FpLoc.event] at here
              split at here
              · cases List.mem_singleton.mp here
              · cases here
          | readNext mp fp fpn' fpNext =>
              rw [at_loc] at here
              cases List.mem_singleton.mp here
          | _ =>
              rw [at_loc] at here
              cases here
    · exact follows.kept t fpn before

theorem run_follows {nodes : FpDevice → List Ptr} (rests : s₀.Rests devs₀ nodes)
    {as : List (FpAction τ)} (runs : run step s₀ as = some s)
    (apart : ∀ t fpn, .call t (.put .mram fpn) ∉ as) :
    ∃ past, run (recorded step event) (s₀, []) as = some (s, past) ∧ s.Follows devs₀ past := by
  obtain ⟨⟨_, past⟩, beside, rfl⟩ :=
    Option.map_eq_some_iff.mp ((run_recorded event s₀ [] as).trans runs)
  obtain ⟨owner, whole⟩ := rests.whole
  have start : s₀.Follows devs₀ [] := by
    refine ⟨⟨owner, devs₀, rfl, whole⟩, fun t x result => ?_, fun _ _ => List.not_mem_nil⟩
    rw [rests.outside] at result
    cases result
  have own : ∀ a ∈ as, ∀ t fpn, a ≠ .call t (.put .mram fpn) :=
    fun a member t fpn same => apart t fpn (same ▸ member)
  refine ⟨past, beside, run_beside_own (P := Follows devs₀) ?_ beside own start⟩
  intro s a s' past follows own h
  exact follows.step own h

/-- The calls of all threads, interleaved in any way at each access to the memory: as long as no
frame is put on the list of `mram`, each call is as if it were made at once at its event. The
threads crash nowhere, the lists are those of the devices after the events, a call returns what its
event says, and no frame of `mram` is handed out twice. -/
theorem frames_shared {nodes : FpDevice → List Ptr} (rests : s₀.Rests devs₀ nodes)
    {as : List (FpAction τ)} (runs : run step s₀ as = some s)
    (apart : ∀ t fpn, .call t (.put .mram fpn) ∉ as) :
    ∃ past devs, run (recorded step event) (s₀, []) as = some (s, past) ∧
      run FpEvent.apply devs₀ (past.reverse.map Prod.snd) = some devs ∧ s.crashed = false ∧
      (∀ mp, Reads 0 s.next s.fpn (s.freeFpList mp) (devs mp).freeFpList) ∧
      (∀ t x, (s.loc t).result = some x → (t, .got x.1 x.2) ∈ past) ∧
      (devs₀ .mram).freeFpList =
        (past.reverse.map Prod.snd).filterMap (FpEvent.handed .mram) ++
          (devs .mram).freeFpList := by
  obtain ⟨past, beside, ⟨owner, devs, applied, whole⟩, results, kept⟩ :=
    run_follows rests runs apart
  refine ⟨past, devs, beside, applied, whole.sound, fun mp => ?_, results,
    FpEvent.handed_run applied fun fpn member => ?_⟩
  · obtain ⟨row, owned, frames⟩ := whole.list mp
    exact ⟨row, owned.chain, frames⟩
  · obtain ⟨⟨t, e⟩, before, rfl⟩ := List.mem_map.mp member
    exact kept t fpn (List.mem_reverse.mp before)

/-- A thread that is in a call and does not wait for a lock in vain goes on, or calls malloc. -/
theorem goes_on {owner : Ptr → Option (FpOwner τ)} (whole : s.Whole owner devs)
    (busy : s.loc t ≠ .outside) (free : ∀ l, (s.loc t).Waits l → s.holder l = none) :
    (s.step (.work t)).isSome ∨ ∃ mp fpn fp, s.loc t = .putting mp fpn fp := by
  unfold step
  rw [whole.sound, if_neg Bool.false_ne_true]
  dsimp only
  unfold work
  cases here : s.loc t with
  | outside => exact absurd here busy
  | putting mp fpn fp => exact .inr ⟨mp, fpn, fp, rfl⟩
  | entering call =>
      rw [here] at free
      dsimp only
      rw [lock, if_pos (free _ rfl)]
      exact .inl rfl
  | entered call =>
      rw [here] at free
      cases call with
      | get mp =>
          dsimp only
          rw [lock, if_pos (free _ rfl)]
          exact .inl rfl
      | put mp fpn => exact .inl rfl
  | readList mp fp =>
      refine .inl ?_
      dsimp only
      split
      · rfl
      · split <;> rfl
  | readFpn mp fp fpn | unlinked mp fp fpn =>
      refine .inl ?_
      dsimp only
      split <;> rfl
  | _ => exact .inl rfl

/-- Where a thread is in a call, one that is in a call can go on with it, or is at its malloc. -/
theorem Whole.progress (whole : s.Whole owner devs) (busy : s.loc t ≠ .outside) :
    ∃ u, s.loc u ≠ .outside ∧
      ((s.step (.work u)).isSome ∨ ∃ mp fpn fp, s.loc u = .putting mp fpn fp) := by
  by_cases free : ∀ l, (s.loc t).Waits l → s.holder l = none
  · exact ⟨t, busy, goes_on whole busy free⟩
  · obtain ⟨l, refused⟩ := not_forall.mp free
    obtain ⟨waiting, blocked⟩ := Classical.not_imp.mp refused
    obtain ⟨u, k, has, free⟩ :=
      whole.locks.not_all_blocked FpLoc.waits_above MmLock.rank_le waiting blocked
    have inside : s.loc u ≠ .outside := fun out => by
      rw [out] at has
      exact has
    exact ⟨u, inside, goes_on whole inside free⟩

/-- The threads do not lock each other out: where one is in a call, one that is in a call can go on
with it, or is at its malloc; and the lock of MEMPHY_get_freefp is the last one that any thread
takes. -/
theorem frames_progress {nodes : FpDevice → List Ptr} (rests : s₀.Rests devs₀ nodes)
    {as : List (FpAction τ)} (runs : run step s₀ as = some s)
    (apart : ∀ t fpn, .call t (.put .mram fpn) ∉ as) :
    (∀ t, s.loc t ≠ .outside → ∃ u, s.loc u ≠ .outside ∧
      ((s.step (.work u)).isSome ∨ ∃ mp fpn fp, s.loc u = .putting mp fpn fp)) ∧
    ∀ t l k, (s.loc t).Waits l → s.holder k = some t → l = .mmMemphyRam ∧ k ≠ .mmMemphyRam := by
  obtain ⟨past, -, ⟨owner, devs, -, whole⟩, -, -⟩ := run_follows rests runs apart
  exact ⟨fun t busy => whole.progress busy, fun t l k waits held => whole.waits_in_order waits held⟩

/-- Two threads, and a device `mram` of two frames, in blocks 10 and 11. -/
def twoThreads : FrameHeap Bool where
  fp p := if p = 10 then some ⟨0, 11⟩ else if p = 11 then some ⟨1, 0⟩ else none
  freeFpList mp := if mp = .mram then 10 else 0
  holder _ := none
  loc _ := .outside
  crashed := false

def twoFrameDevices (mp : FpDevice) : Memphy :=
  if mp = .mram then ⟨fun _ => 0, 512, true, [0, 1]⟩ else ⟨fun _ => 0, 0, true, []⟩

theorem twoThreads_rests : twoThreads.Rests twoFrameDevices
    fun mp => if mp = .mram then [10, 11] else [] where
  sound := rfl
  outside _ := rfl
  free _ := rfl
  chain mp := by
    cases mp with
    | mram => exact ⟨by decide, rfl, by decide, rfl, rfl⟩
    | mswp k => rfl
  frames mp := by
    cases mp with
    | mram => rfl
    | mswp k => rfl
  live mp q member := by
    cases mp with
    | mram =>
        rcases List.mem_pair.mp member with rfl | rfl
        · rfl
        · rfl
    | mswp k => cases member
  apart mp dev q member member' := by
    cases mp with
    | mswp k => cases member
    | mram =>
        cases dev with
        | mram => rfl
        | mswp k => cases member'

/-- A call of MEMPHY_get_freefp from its lock to its unlock. -/
def getting (t : Bool) : List (FpAction Bool) := .call t (.get .mram) :: List.replicate 9 (.work t)

/-- Each of the two threads gets a frame. -/
theorem frames_shared_two : ∃ s past, ∃ devs : FpDevice → Memphy,
    run (recorded step event) (twoThreads, []) (getting true ++ getting false) = some (s, past) ∧
      s.crashed = false ∧
      [0, 1] = (past.reverse.map Prod.snd).filterMap (FpEvent.handed .mram) ++
        (devs .mram).freeFpList := by
  have moves : (run step twoThreads (getting true ++ getting false)).isSome := by decide
  obtain ⟨s, runs⟩ := Option.isSome_iff_exists.mp moves
  obtain ⟨past, devs, beside, -, sound, -, -, frames⟩ :=
    frames_shared twoThreads_rests runs (by simp [getting])
  exact ⟨s, past, devs, beside, sound, frames⟩

/-- One thread has the lock of MEMPHY_get_freefp, and the other one waits for that of its caller. -/
theorem frames_progress_two : ∃ s : FrameHeap Bool, run step twoThreads
    ((getting true).take 3 ++ (getting false).take 1) = some s ∧ (∃ u, s.loc u ≠ .outside ∧
      ((s.step (.work u)).isSome ∨ ∃ mp fpn fp, s.loc u = .putting mp fpn fp)) ∧
    s.holder .mmMemphyRam = some true ∧ ¬ (s.loc true).Waits .mmRam := by
  obtain ⟨s, runs, busy, held⟩ :
      ∃ s ∈ run step twoThreads ((getting true).take 3 ++ (getting false).take 1),
        s.loc true ≠ .outside ∧ s.holder .mmMemphyRam = some true := by
    decide
  obtain ⟨goes_on, order⟩ := frames_progress twoThreads_rests runs (by simp [getting])
  exact ⟨s, runs, goes_on true busy, held, fun waits => (order _ _ _ waits held).2 rfl⟩

/-- alloc_pages_range against free_pcb_memph, whose locks are not the same: the frame is put on
the list in front of the node that is being taken off, which is freed. The third call for a frame
follows the link to it. -/
theorem ram_put_races : (run step twoThreads
    ([.call false (.get .mram), .call true (.put .mram 5)] ++ List.replicate 3 (.work false) ++
      List.replicate 2 (.work true) ++ List.replicate 4 (.work false) ++
      [.malloc true 12, .work true] ++ List.replicate 2 (.work false) ++ getting false ++
      (getting false).take 5)).map FrameHeap.crashed = some true := by
  decide

end FrameHeap
end OsSim
