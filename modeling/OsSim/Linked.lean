import Mathlib.Data.List.Basic

/-! Lists of nodes that each hold a pointer to the next one, up to a null pointer. Nothing
here depends on what a node holds besides its link. -/
namespace Linked

variable {P : Type*} (null : P) (next : P → P)

/-- The nodes that the links lead through from a pointer. -/
def Chain : P → List P → Prop
  | p, [] => p = null
  | p, node :: rest => p ≠ null ∧ p = node ∧ Chain (next p) rest

variable {null next} {p : P} {nodes : List P}

@[simp] theorem chain_null : Chain null next null nodes ↔ nodes = [] := by
  cases nodes with
  | nil => exact iff_of_true rfl rfl
  | cons node rest => exact iff_of_false (fun chain => chain.1 rfl) (List.cons_ne_nil _ _)

theorem Chain.ne_null (chain : Chain null next p nodes) (nonempty : nodes ≠ []) : p ≠ null := by
  rintro rfl
  exact nonempty (chain_null.mp chain)

theorem chain_iff (some_node : p ≠ null) : Chain null next p nodes ↔
    ∃ rest, nodes = p :: rest ∧ Chain null next (next p) rest := by
  cases nodes with
  | nil => exact iff_of_false some_node fun ⟨_, same, _⟩ => List.cons_ne_nil _ _ same.symm
  | cons node rest =>
      constructor
      · rintro ⟨_, rfl, later⟩
        exact ⟨rest, rfl, later⟩
      · rintro ⟨_, same, later⟩
        obtain ⟨rfl, rfl⟩ := List.cons.inj same
        exact ⟨some_node, rfl, later⟩

/-- The links lead to an end along one list at most. -/
theorem Chain.unique {others : List P} (chain : Chain null next p nodes)
    (chain' : Chain null next p others) : nodes = others := by
  induction nodes generalizing p others with
  | nil =>
      obtain rfl : p = null := chain
      exact (chain_null.mp chain').symm
  | cons node rest ih =>
      obtain ⟨some_node, rfl, later⟩ := chain
      obtain ⟨rest', rfl, later'⟩ := (chain_iff some_node).mp chain'
      rw [ih later later']

/-- What is written to other nodes does not show. -/
theorem Chain.congr {next' : P → P} (same : ∀ q ∈ nodes, next' q = next q)
    (chain : Chain null next p nodes) : Chain null next' p nodes := by
  induction nodes generalizing p with
  | nil => exact chain
  | cons node rest ih =>
      obtain ⟨some_node, rfl, later⟩ := chain
      obtain ⟨here, elsewhere⟩ := List.forall_mem_cons.mp same
      exact ⟨some_node, rfl, here ▸ ih elsewhere later⟩

/-- The links from a node of the list on lead through the rest of it. -/
theorem Chain.later {front rest : List P} {node : P}
    (chain : Chain null next p (front ++ node :: rest)) : Chain null next node (node :: rest) := by
  induction front generalizing p with
  | nil =>
      obtain ⟨some_node, rfl, later⟩ := chain
      exact ⟨some_node, rfl, later⟩
  | cons first front ih => exact ih chain.2.2

/-- A list that comes to an end is through no node twice. -/
theorem Chain.nodup (chain : Chain null next p nodes) : nodes.Nodup := by
  induction nodes generalizing p with
  | nil => exact List.nodup_nil
  | cons node rest ih =>
      have whole := chain
      obtain ⟨-, rfl, later⟩ := chain
      refine List.nodup_cons.mpr ⟨?_, ih later⟩
      intro again
      obtain ⟨front, back, rfl⟩ := List.append_of_mem again
      have same := later.later.unique whole
      have shorter := congrArg List.length (List.cons.inj same).2
      rw [List.length_append, List.length_cons] at shorter
      omega

/-- A null link written into a node ends the list there. -/
theorem Chain.cut {next' : P → P} {front rest : List P} {node : P}
    (chain : Chain null next p (front ++ node :: rest)) (same : ∀ q ∈ front, next' q = next q)
    (last : next' node = null) : Chain null next' p (front ++ [node]) := by
  induction front generalizing p with
  | nil =>
      obtain ⟨some_node, rfl, -⟩ := chain
      exact ⟨some_node, rfl, last⟩
  | cons first front ih =>
      obtain ⟨some_node, rfl, later⟩ := chain
      obtain ⟨here, elsewhere⟩ := List.forall_mem_cons.mp same
      exact ⟨some_node, rfl, here ▸ ih later elsewhere⟩

/-- Nodes in a row, each with a link to the one after it and the last one with none. -/
theorem chain_row {b : Nat → P} {i n : Nat} (some_nodes : ∀ j, b j ≠ null)
    (links : ∀ j, i ≤ j → j < i + n → next (b j) = b (j + 1)) (last : next (b (i + n)) = null) :
    Chain null next (b i) ((List.range' i (n + 1)).map b) := by
  induction n generalizing i with
  | zero => exact ⟨some_nodes i, rfl, last⟩
  | succ n ih =>
      have here := links i (Nat.le_refl i) (by omega)
      refine ⟨some_nodes i, rfl, ?_⟩
      rw [here]
      refine ih (fun j low high => links j (by omega) (by omega)) ?_
      rw [← last]
      congr 2
      omega

section Contents
variable {V : Type*} {val : P → V} {v : V} {vs : List V}

variable (null next val) in
/-- The links lead from a pointer to an end, through nodes with these values. -/
def Reads (p : P) (vs : List V) : Prop := ∃ nodes, Chain null next p nodes ∧ nodes.map val = vs

theorem reads_nil : Reads null next val p [] ↔ p = null := by
  constructor
  · rintro ⟨nodes, chain, none⟩
    obtain rfl := List.map_eq_nil_iff.mp none
    exact chain
  · exact fun empty => ⟨[], empty, rfl⟩

theorem reads_cons : Reads null next val p (v :: vs) ↔
    p ≠ null ∧ val p = v ∧ Reads null next val (next p) vs := by
  constructor
  · rintro ⟨nodes, chain, same⟩
    obtain ⟨node, rest, rfl, first, later⟩ := List.map_eq_cons_iff.mp same
    obtain ⟨some_node, rfl, chain⟩ := chain
    exact ⟨some_node, first, rest, chain, later⟩
  · rintro ⟨some_node, rfl, rest, chain, later⟩
    exact ⟨p :: rest, ⟨some_node, rfl, chain⟩, congrArg (val p :: ·) later⟩

end Contents

section Owned
variable {live live' others : P → Prop} {next' : P → P} {node block : P} {rest : List P}

variable (null next live others) in
/-- A list with nodes of its own: they and some other blocks are all that is in use. -/
structure Owned (p : P) (nodes : List P) : Prop where
  chain : Chain null next p nodes
  used : ∀ q, live q ↔ q ∈ nodes ∨ others q
  apart : ∀ q ∈ nodes, ¬ others q

/-- A block that has not been in use is put in front. -/
theorem Owned.push (owned : Owned null next live others p nodes) (some_block : block ≠ null)
    (fresh : ¬ live block) (link : next' block = p) (same : ∀ q, q ≠ block → next' q = next q)
    (taken : ∀ q, live' q ↔ q = block ∨ live q) :
    Owned null next' live' others block (block :: nodes) where
  chain := by
    refine ⟨some_block, rfl, link ▸ owned.chain.congr fun q member => same q ?_⟩
    rintro rfl
    exact fresh ((owned.used q).mpr (.inl member))
  used q := by rw [taken, owned.used, List.mem_cons, or_assoc]
  apart q member := by
    rcases List.mem_cons.mp member with rfl | member
    · exact fun other => fresh ((owned.used q).mpr (.inr other))
    · exact owned.apart q member

/-- The first node is in use, and is given back. -/
theorem Owned.pop (owned : Owned null next live others p (node :: rest))
    (same : ∀ q, q ≠ p → next' q = next q) (freed : ∀ q, live' q ↔ q ≠ p ∧ live q) :
    live p ∧ Owned null next' live' others (next p) rest := by
  have once := List.nodup_cons.mp owned.chain.nodup
  obtain ⟨chain, used, apart⟩ := owned
  obtain ⟨-, rfl, later⟩ := chain
  refine ⟨(used p).mpr (.inl List.mem_cons_self), ?_, fun q => ?_, fun q member =>
    apart q (List.mem_cons_of_mem _ member)⟩
  · refine later.congr fun q member => same q ?_
    rintro rfl
    exact once.1 member
  · rw [freed, used, List.mem_cons]
    constructor
    · rintro ⟨other, (rfl | member) | elsewhere⟩
      · exact absurd rfl other
      · exact .inl member
      · exact .inr elsewhere
    · rintro (member | elsewhere)
      · exact ⟨fun eq => once.1 (eq ▸ member), .inl (.inr member)⟩
      · exact ⟨fun eq => apart p List.mem_cons_self (eq ▸ elsewhere), .inr elsewhere⟩

end Owned
end Linked
