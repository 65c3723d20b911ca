import OsSim.InitMm
import OsSim.Paging
import OsSim.Transition

/-! The pages that find_victim_page chooses from, as the list of nodes that is in memory. A
page joins at its head and leaves at its end, where the loop has to stop one node early. -/
namespace OsSim
open Linked Transition

/-- `struct pgn_t`. -/
structure PgnNode where
  pgn : Int
  pgNext : Ptr

/-- The nodes that are allocated, and `fifo_pgn`. -/
structure PgnHeap where
  node : Ptr → Option PgnNode
  fifoPgn : Ptr

namespace PgnHeap

def empty : PgnHeap := ⟨fun _ => none, 0⟩

/-- A read through a pointer, `none` if it leads to no node. -/
def load (s : PgnHeap) (p : Ptr) : Option PgnNode := if p = 0 then none else s.node p

def setNode (s : PgnHeap) (p : Ptr) (node : Option PgnNode) : PgnHeap :=
  { s with node := Function.update s.node p node }

def free (s : PgnHeap) (p : Ptr) : Option PgnHeap := (s.load p).map fun _ => s.setNode p none

def setNext (s : PgnHeap) (p next : Ptr) : Option PgnHeap :=
  (s.load p).map fun node => s.setNode p (some { node with pgNext := next })

/-- enlist_pgn_node with what malloc returns for the node; `none` where it writes through
NULL. -/
def enlistPgnNode (s : PgnHeap) (pnode : Ptr) (pgn : Int) : Option PgnHeap :=
  if pnode = 0 then none
  else some { s.setNode pnode (some ⟨pgn, s.fifoPgn⟩) with fifoPgn := pnode }

/-- The loop of find_victim_page from `pg` on: the node in front of the last one, or the only
one. -/
def walk (s : PgnHeap) : (fuel : Nat) → Ptr → Option Ptr
  | 0, _ => none
  | fuel + 1, pg => do
      let node ← s.load pg
      if node.pgNext = 0 then return pg
      else
        let behind ← s.load node.pgNext
        if behind.pgNext = 0 then return pg else s.walk fuel node.pgNext

/-- find_victim_page: the page it returns with 0, none with -1. -/
def findVictimPage (s : PgnHeap) (fuel : Nat) : Option (Option Int × PgnHeap) :=
  if s.fifoPgn = 0 then some (none, s)
  else do
    let pg ← s.walk fuel s.fifoPgn
    let node ← s.load pg
    if node.pgNext ≠ 0 then
      let last ← s.load node.pgNext
      let s ← s.free node.pgNext
      let s ← s.setNext pg 0
      return (some last.pgn, s)
    else
      let s ← s.free pg
      return (some node.pgn, { s with fifoPgn := 0 })

def pgn (s : PgnHeap) (p : Ptr) : Option Int := (s.load p).map PgnNode.pgn

def next (s : PgnHeap) (p : Ptr) : Ptr := ((s.load p).map PgnNode.pgNext).getD 0

/-- The list comes to an end and has these pages, the newest first. -/
def Lists (s : PgnHeap) (pgns : List Int) : Prop :=
  Reads 0 s.next s.pgn s.fifoPgn (pgns.map some)

theorem lists_nil {s : PgnHeap} : s.Lists [] ↔ s.fifoPgn = 0 := reads_nil

theorem load_of_pgn {s : PgnHeap} {p : Ptr} {pgn : Int} (holds : s.pgn p = some pgn) :
    s.load p = some ⟨pgn, s.next p⟩ := by
  obtain ⟨node, read, rfl⟩ := Option.map_eq_some_iff.mp holds
  rw [next, read]
  rfl

theorem some_load {s : PgnHeap} {nodes : List Ptr} {pgns : List Int}
    (same : nodes.map s.pgn = pgns.map some) {p : Ptr} (member : p ∈ nodes) :
    ∃ pgn, s.load p = some ⟨pgn, s.next p⟩ := by
  have listed : s.pgn p ∈ pgns.map some := same ▸ List.mem_map_of_mem member
  obtain ⟨pgn, -, holds⟩ := List.mem_map.mp listed
  exact ⟨pgn, load_of_pgn holds.symm⟩

theorem load_setNode (s : PgnHeap) (p q : Ptr) (node : Option PgnNode) :
    (s.setNode p node).load q = if q = 0 then none else if q = p then node else s.node q :=
  if_congr Iff.rfl rfl (Function.update_apply s.node p node q)

/-- A node that is not written reads as before. -/
theorem load_setNode_other (s : PgnHeap) {p q : Ptr} (other : q ≠ p) (node : Option PgnNode) :
    (s.setNode p node).load q = s.load q := by
  rw [load_setNode, load, if_neg other]

theorem load_setNode_same (s : PgnHeap) {p : Ptr} (some_p : p ≠ 0) (node : Option PgnNode) :
    (s.setNode p node).load p = node := by
  rw [load_setNode, if_neg some_p, if_pos rfl]

theorem next_congr {s s' : PgnHeap} {p : Ptr} (same : s'.load p = s.load p) :
    s'.next p = s.next p := congrArg (fun node => (node.map PgnNode.pgNext).getD 0) same

theorem pgn_congr {s s' : PgnHeap} {p : Ptr} (same : s'.load p = s.load p) :
    s'.pgn p = s.pgn p := congrArg (Option.map PgnNode.pgn) same

/-- The new page is at the head of the list. -/
theorem Lists.enlistPgnNode {s : PgnHeap} {pgns : List Int} (list : s.Lists pgns) {pnode : Ptr}
    (some_node : pnode ≠ 0) (fresh : s.node pnode = none) (pgn : Int) :
    ∃ s', s.enlistPgnNode pnode pgn = some s' ∧ s'.Lists (pgn :: pgns) := by
  obtain ⟨nodes, chain, same⟩ := list
  let s' : PgnHeap := { s.setNode pnode (some ⟨pgn, s.fifoPgn⟩) with fifoPgn := pnode }
  have head : s'.load pnode = some ⟨pgn, s.fifoPgn⟩ := s.load_setNode_same some_node _
  have kept : ∀ q ∈ nodes, s'.load q = s.load q := by
    intro q member
    refine s.load_setNode_other ?_ _
    rintro rfl
    obtain ⟨_, read⟩ := some_load same member
    rw [load, if_neg some_node, fresh] at read
    cases read
  refine ⟨s', if_neg some_node, pnode :: nodes, ⟨some_node, rfl, ?_⟩, ?_⟩
  · have link : s'.next pnode = s.fifoPgn := by rw [next, head]; rfl
    rw [link]
    exact chain.congr fun q member => next_congr (kept q member)
  · have value : s'.pgn pnode = some pgn := by rw [PgnHeap.pgn, head]; rfl
    rw [List.map_cons, List.map_cons, value, ← same]
    exact congrArg _ (List.map_congr_left fun q member => pgn_congr (kept q member))

/-- A round of the loop at a node that has one behind it. -/
theorem walk_succ {s : PgnHeap} {pg : Ptr} {pgn pgn' : Int} (fuel : Nat)
    (some_next : s.next pg ≠ 0) (read : s.load pg = some ⟨pgn, s.next pg⟩)
    (read' : s.load (s.next pg) = some ⟨pgn', s.next (s.next pg)⟩) :
    s.walk (fuel + 1) pg =
      if s.next (s.next pg) = 0 then some pg else s.walk fuel (s.next pg) := by
  rw [walk, read]
  simp only [Option.bind_eq_bind, Option.bind_some, if_neg some_next, read']
  rfl

/-- The loop stops in front of the last node, by induction on the nodes before that. -/
theorem walk_eq {s : PgnHeap} {front : List Ptr} {pg node last : Ptr} {fuel : Nat}
    (chain : Chain 0 s.next pg (front ++ [node, last]))
    (loads : ∀ p ∈ front ++ [node, last], ∃ pgn, s.load p = some ⟨pgn, s.next p⟩)
    (enough : front.length < fuel) : s.walk fuel pg = some node := by
  induction front generalizing pg fuel with
  | nil =>
      obtain ⟨fuel, rfl⟩ := Nat.exists_eq_add_one_of_ne_zero (Nat.ne_zero_of_lt enough)
      obtain ⟨-, rfl, some_last, rfl, stop⟩ := chain
      obtain ⟨⟨_, read⟩, loads⟩ := List.forall_mem_cons.mp loads
      obtain ⟨⟨_, read'⟩, -⟩ := List.forall_mem_cons.mp loads
      rw [walk_succ fuel some_last read read']
      exact if_pos stop
  | cons first front ih =>
      obtain ⟨fuel, rfl⟩ := Nat.exists_eq_add_one_of_ne_zero (Nat.ne_zero_of_lt enough)
      rw [List.cons_append] at chain loads
      obtain ⟨-, rfl, later⟩ := chain
      obtain ⟨⟨_, read⟩, loads⟩ := List.forall_mem_cons.mp loads
      rw [← ih later loads (Nat.lt_of_succ_lt_succ enough)]
      obtain ⟨second, behind, shape, some_behind⟩ : ∃ second behind,
          front ++ [node, last] = second :: behind ∧ behind ≠ [] := by
        cases front with
        | nil => exact ⟨node, [last], rfl, List.cons_ne_nil _ _⟩
        | cons second front => exact ⟨second, _, rfl, by simp⟩
      rw [shape] at later loads
      obtain ⟨some_second, rfl, later⟩ := later
      obtain ⟨⟨_, read'⟩, -⟩ := List.forall_mem_cons.mp loads
      rw [walk_succ fuel some_second read read', if_neg (later.ne_null some_behind)]

/-- The only node is freed, and the list is empty. -/
theorem findVictimPage_only {s : PgnHeap} {pgn : Int} (fuel : Nat) (some_node : s.fifoPgn ≠ 0)
    (read : s.load s.fifoPgn = some ⟨pgn, s.next s.fifoPgn⟩) (stop : s.next s.fifoPgn = 0) :
    s.findVictimPage (fuel + 1) =
      some (some pgn, { s.setNode s.fifoPgn none with fifoPgn := 0 }) := by
  rw [stop] at read
  rw [findVictimPage, if_neg some_node, walk]
  simp [read, free]

/-- The last node is freed, and the one in front of it ends the list. -/
theorem findVictimPage_last {s : PgnHeap} {pg : Ptr} {pgn pgn' : Int} {fuel : Nat}
    (some_node : s.fifoPgn ≠ 0) (found : s.walk fuel s.fifoPgn = some pg)
    (read : s.load pg = some ⟨pgn', s.next pg⟩) (some_next : s.next pg ≠ 0)
    (read' : s.load (s.next pg) = some ⟨pgn, s.next (s.next pg)⟩) (apart : pg ≠ s.next pg) :
    s.findVictimPage fuel =
      some (some pgn, (s.setNode (s.next pg) none).setNode pg (some ⟨pgn', 0⟩)) := by
  have kept : (s.setNode (s.next pg) none).load pg = some ⟨pgn', s.next pg⟩ :=
    (s.load_setNode_other apart none).trans read
  rw [findVictimPage, if_neg some_node, found]
  simp [read, some_next, read', free, setNext, kept]

/-- The page that leaves is the one at the end of the list. -/
theorem Lists.findVictimPage {s : PgnHeap} {pgns : List Int} {pgn : Int} {fuel : Nat}
    (list : s.Lists (pgns ++ [pgn])) (enough : pgns.length < fuel) :
    ∃ s', s.findVictimPage fuel = some (some pgn, s') ∧ s'.Lists pgns := by
  obtain ⟨nodes, chain, same⟩ := list
  have loads : ∀ p ∈ nodes, ∃ pgn, s.load p = some ⟨pgn, s.next p⟩ :=
    fun p member => some_load same member
  rw [List.map_append, List.map_eq_append_iff] at same
  obtain ⟨front, ending, rfl, same, ending_same⟩ := same
  obtain ⟨last, rfl, value⟩ := List.map_eq_singleton_iff.mp ending_same
  have few : front.length = pgns.length := by simpa using congrArg List.length same
  rcases List.eq_nil_or_concat front with rfl | ⟨front, node, rfl⟩
  · obtain rfl := List.map_eq_nil_iff.mp same.symm
    obtain ⟨fuel, rfl⟩ := Nat.exists_eq_add_one_of_ne_zero (Nat.ne_zero_of_lt enough)
    obtain ⟨some_node, rfl, stop⟩ := chain
    exact ⟨_, findVictimPage_only fuel some_node (load_of_pgn value) stop, lists_nil.mpr rfl⟩
  · rw [List.concat_eq_append] at same few loads chain
    rw [List.append_assoc, List.singleton_append] at loads chain
    obtain ⟨some_node, -, some_last, rfl, -⟩ := chain.later
    obtain ⟨first, read⟩ := loads node (by simp)
    have head : s.fifoPgn ≠ 0 := chain.ne_null (by simp)
    have found : s.walk fuel s.fifoPgn = some node := by
      refine walk_eq chain loads ?_
      rw [List.length_append, List.length_singleton] at few
      omega
    obtain ⟨-, pair, others⟩ := List.nodup_append.mp chain.nodup
    have apart : node ≠ s.next node := by simpa using pair
    let s' := (s.setNode (s.next node) none).setNode node (some ⟨first, 0⟩)
    have kept : ∀ q ∈ front, s'.load q = s.load q := by
      intro q member
      have here := others q member node (by simp)
      have there := others q member (s.next node) (by simp)
      exact (load_setNode_other _ here _).trans (s.load_setNode_other there none)
    have cut : s'.load node = some ⟨first, 0⟩ := load_setNode_same _ some_node _
    refine ⟨s', findVictimPage_last head found read some_last (load_of_pgn value) apart,
      front ++ [node], ?_, ?_⟩
    · refine chain.cut (fun q member => next_congr (kept q member)) ?_
      rw [next, cut]
      rfl
    · rw [← same]
      refine List.map_congr_left fun q member => ?_
      rcases List.mem_append.mp member with member | member
      · exact pgn_congr (kept q member)
      · obtain rfl := List.mem_singleton.mp member
        rw [PgnHeap.pgn, PgnHeap.pgn, cut, read]
        rfl

/-- A call, with what malloc returns for the node if there is one to make. -/
inductive FifoCall where
  | enlistPgnNode (pnode : { p : Ptr // p ≠ 0 }) (pgn : Int)
  | findVictimPage

def FifoCall.enlisted : FifoCall → List Int
  | enlistPgnNode _ pgn => [pgn]
  | findVictimPage => []

/-- malloc gives out memory that is not in use. -/
def Granted (s : PgnHeap) : FifoCall → Prop
  | .enlistPgnNode pnode _ => s.node pnode = none
  | .findVictimPage => True

def exec (fuel : Nat) (s : PgnHeap) : FifoCall → Option PgnHeap
  | .enlistPgnNode pnode pgn => s.enlistPgnNode pnode pgn
  | .findVictimPage => (s.findVictimPage fuel).map Prod.snd

/-- The page that the call returns, if it returns one. -/
def returned (fuel : Nat) (s : PgnHeap) (call : FifoCall) (_ : PgnHeap) : List Int :=
  match call with
  | .enlistPgnNode _ _ => []
  | .findVictimPage => ((s.findVictimPage fuel).bind Prod.fst).toList

/-- What find_victim_page does next where these pages wait, the earliest first. -/
def Next (fuel : Nat) (s : PgnHeap) : List Int → Prop
  | [] => s.fifoPgn = 0 ∧ s.findVictimPage fuel = some (none, s)
  | pgn :: _ => s.fifoPgn ≠ 0 ∧ ∃ s', s.findVictimPage fuel = some (some pgn, s')

section Runs
variable {fuel : Nat} {s : PgnHeap} {waiting : List Int}

theorem Lists.next (list : s.Lists waiting.reverse) (enough : waiting.length ≤ fuel) :
    s.Next fuel waiting := by
  cases waiting with
  | nil =>
      have none := lists_nil.mp list
      exact ⟨none, if_pos none⟩
  | cons pgn later =>
      rw [List.reverse_cons] at list
      rw [List.length_cons, ← List.length_reverse] at enough
      obtain ⟨s', found, -⟩ := list.findVictimPage enough
      refine ⟨?_, s', found⟩
      intro none
      rw [PgnHeap.findVictimPage, if_pos none] at found
      cases found

/-- A call passes the pages on in the order they wait in: the one it returns is the first,
the one it enlists the last. -/
theorem Lists.exec (list : s.Lists waiting.reverse) (enough : waiting.length ≤ fuel)
    {call : FifoCall} (granted : s.Granted call) : ∃ s' waiting',
      exec fuel s call = some s' ∧ s'.Lists waiting'.reverse ∧
      (returned fuel s call s').reverse ++ waiting' = waiting ++ call.enlisted ∧
      waiting'.length ≤ waiting.length + 1 := by
  cases call with
  | enlistPgnNode pnode pgn =>
      obtain ⟨s', done, list⟩ := list.enlistPgnNode pnode.2 granted pgn
      rw [← List.reverse_concat] at list
      exact ⟨s', waiting ++ [pgn], done, list, rfl, by simp⟩
  | findVictimPage =>
      cases waiting with
      | nil =>
          have found : s.findVictimPage fuel = some (none, s) := if_pos (lists_nil.mp list)
          exact ⟨s, [], by simp [PgnHeap.exec, found], list,
            by simp [returned, found, FifoCall.enlisted], Nat.zero_le _⟩
      | cons pgn later =>
          rw [List.reverse_cons] at list
          rw [List.length_cons, ← List.length_reverse] at enough
          obtain ⟨s', found, list⟩ := list.findVictimPage enough
          exact ⟨s', later, by simp [PgnHeap.exec, found], list,
            by simp [returned, found, FifoCall.enlisted], by simp; omega⟩

/-- So does a run, by induction on its calls. -/
theorem Lists.run (list : s.Lists waiting.reverse) {calls : List FifoCall}
    (enough : waiting.length + calls.length ≤ fuel)
    (granted : EachStep (PgnHeap.exec fuel) Granted s calls) (past : List Int) :
    ∃ s' past' waiting',
      run (recorded (PgnHeap.exec fuel) (returned fuel)) (s, past) calls = some (s', past') ∧
      s'.Lists waiting'.reverse ∧ waiting'.length ≤ fuel ∧
      past'.reverse ++ waiting' = past.reverse ++ waiting ++ calls.flatMap FifoCall.enlisted := by
  induction calls generalizing s waiting past with
  | nil => exact ⟨s, past, waiting, rfl, list, enough, by simp⟩
  | cons call calls ih =>
      rw [List.length_cons] at enough
      have allowed : s.Granted call := by
        cases call with
        | enlistPgnNode pnode pgn => exact (granted _ (if_neg pnode.2)).1
        | findVictimPage => trivial
      obtain ⟨u, between, done, list, passed, few⟩ :=
        list.exec (Nat.le_of_add_right_le enough) allowed
      obtain ⟨s', past', waiting', rest, list, few', passed'⟩ :=
        ih list (by omega) (granted u done).2 (returned fuel s call u ++ past)
      refine ⟨s', past', waiting', ?_, list, few', ?_⟩
      · rw [run_cons, recorded, done]
        exact rest
      · rw [passed', List.reverse_append, List.append_assoc past.reverse, passed,
          List.flatMap_cons, List.append_assoc, List.append_assoc, List.append_assoc]

end Runs

/-- The pages come out in the order they were enlisted: after any calls from the empty list,
those returned and those that still wait, one after the other, are those enlisted, and
find_victim_page returns the first that waits. -/
theorem victim_order {fuel : Nat} {calls : List FifoCall}
    (granted : EachStep (exec fuel) Granted empty calls) (enough : calls.length ≤ fuel) :
    ∃ s past waiting,
      run (recorded (exec fuel) (returned fuel)) (empty, []) calls = some (s, past) ∧
      past.reverse ++ waiting = calls.flatMap FifoCall.enlisted ∧ s.Next fuel waiting := by
  have list : empty.Lists ([] : List Int).reverse := lists_nil.mpr rfl
  obtain ⟨s, past, waiting, done, list, few, passed⟩ :=
    list.run ((Nat.zero_add _).trans_le enough) granted []
  exact ⟨s, past, waiting, done, passed, list.next few⟩

/-- Two pages enlisted, the first of them returned. -/
theorem victim_order_two : ∃ s past waiting,
    run (recorded (exec 3) (returned 3)) (empty, [])
      [.enlistPgnNode ⟨1, by decide⟩ 5, .enlistPgnNode ⟨2, by decide⟩ 7, .findVictimPage] =
        some (s, past) ∧
      past.reverse ++ waiting = [5, 7] ∧ s.Next 3 waiting := by
  refine victim_order ?_ (by decide)
  intro s done
  cases done
  refine ⟨rfl, fun s done => ?_⟩
  cases done
  exact ⟨rfl, fun _ _ => ⟨trivial, trivial⟩⟩

/-- The list in memory has the pages of a process. -/
def Shows (s : PgnHeap) (mm : Mm) : Prop := s.Lists (mm.fifoPgn.map fun pgn => (pgn.val : Int))

theorem Shows.enlistPgnNode {s : PgnHeap} {mm : Mm} (same : s.Shows mm) {pnode : Ptr}
    (some_node : pnode ≠ 0) (fresh : s.node pnode = none) (pgn : Pgn) :
    ∃ s', s.enlistPgnNode pnode pgn.val = some s' ∧ s'.Shows (mm.enlistPgnNode pgn) :=
  Lists.enlistPgnNode same some_node fresh pgn.val

/-- find_victim_page on the memory is the one that pg_getpage uses. -/
theorem Shows.findVictimPage {s : PgnHeap} {mm : Mm} (same : s.Shows mm) {fuel : Nat}
    (enough : mm.fifoPgn.length ≤ fuel) : match mm.findVictimPage with
      | none => s.findVictimPage fuel = some (none, s)
      | some (pgn, mm) => ∃ s', s.findVictimPage fuel = some (some (pgn.val : Int), s') ∧
          s'.Shows mm := by
  rcases List.eq_nil_or_concat mm.fifoPgn with nil | ⟨rest, pgn, fifo⟩
  · rw [Shows, nil] at same
    rw [Mm.findVictimPage, nil]
    exact if_pos (lists_nil.mp same)
  · rw [List.concat_eq_append] at fifo
    rw [Shows, fifo, List.map_append] at same
    rw [fifo, List.length_append] at enough
    rw [Mm.findVictimPage, fifo, List.getLast?_concat, List.dropLast_concat]
    refine Lists.findVictimPage same ?_
    rw [List.length_map]
    exact enough

end PgnHeap
end OsSim
