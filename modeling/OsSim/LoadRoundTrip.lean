import OsSim.Loader

/-! Files that are written as load expects them. A scan that fails on the word after an
instruction leaves it for the next one, so the second scan of MALLOC does no harm. -/
namespace OsSim
open Scanf

namespace Opcode

/-- How the opcode is written in a file, and how many operands follow it. -/
def word : Opcode → List Char
  | .calc => optCalc
  | .alloc => optAlloc
  | .malloc => optMalloc
  | .free => optFree
  | .read => optRead
  | .write => optWrite

def arity : Opcode → Nat
  | .calc => 0
  | .free => 1
  | .alloc | .malloc => 2
  | .read | .write => 3

theorem arity_le (op : Opcode) : op.arity ≤ 3 := by
  cases op <;> decide

theorem getOpcode_word (op : Opcode) : getOpcode op.word = .ok op := by
  cases op <;> rfl

theorem word_length (op : Opcode) : ¬ 10 ≤ op.word.length := by
  cases op <;> decide

theorem word_isWord (op : Opcode) : IsWord op.word := by
  have no_space : op.word.all (!isSpace ·) = true := by
    cases op <;> decide
  constructor
  · cases op <;> decide
  · intro c member
    simpa using List.all_eq_true.mp no_space c member

theorem word_noNumber (op : Opcode) : NoNumber op.word := by
  cases op <;> exact ⟨_, _, rfl, by decide, by decide, by decide⟩

theorem getOpcode_eq_ok {opt : List Char} {op : Opcode} (h : getOpcode opt = .ok op) :
    opt = op.word := by
  unfold getOpcode at h
  split_ifs at h with calc_ alloc_ malloc_ free_ read_ write_ <;> cases h <;> assumption

end Opcode

namespace Inst

/-- The operands that are written for an instruction. -/
def operands (ins : Inst) : List (BitVec 32) := [ins.arg0, ins.arg1, ins.arg2].take ins.opcode.arity

def words (ins : Inst) : List (List Char) :=
  ins.opcode.word :: ins.operands.map fun v => decimal v.toNat

/-- What a file says of an instruction. -/
def written (ins : Inst) : Opcode × List (BitVec 32) := (ins.opcode, ins.operands)

end Inst

/-- The words of a process file. -/
def fileWords (priority : BitVec 32) (code : List Inst) : List (List Char) :=
  decimal priority.toNat :: decimal code.length :: code.flatMap Inst.words

/-- `priority count` and the instructions one after another, with any white space between. -/
def Written (priority : BitVec 32) (code : List Inst) (t : List Char) : Prop :=
  Spaced (fileWords priority code) t

namespace Inst
variable {ins : Inst} {vs : List (BitVec 32)} {ws : List (List Char)} {t : List Char}

theorem store_opcode (ins : Inst) (vs : List (BitVec 32)) :
    (ins.store vs).opcode = ins.opcode := by
  unfold store
  split
  · rfl
  · rfl
  · rfl
  · rfl

theorem store_operands (all : vs.length = ins.opcode.arity) : (ins.store vs).operands = vs := by
  have few := all.trans_le ins.opcode.arity_le
  rw [operands, store_opcode, ← all]
  match vs, few with
  | [], _ => rfl
  | [_], _ => rfl
  | [_, _], _ => rfl
  | [_, _, _], _ => rfl

theorem scanArgs_spaced (ins : Inst) {n : Nat} (few : vs.length ≤ n)
    (spaced : Spaced (vs.map (fun v => decimal v.toNat) ++ ws) t)
    (other : ∀ w ∈ ws.head?, NoNumber w) :
    ∃ t', ins.scanArgs n t = (ins.store vs, t') ∧ Spaced ws t' := by
  rcases spaced.scanf_uints few (fun _ => other) with ⟨t', read, left⟩
  refine ⟨t', ?_, left⟩
  rw [scanArgs, read]

/-- The operands are read as far as they are there, and nothing of what comes next. -/
theorem loadArgs_spaced (few : vs.length ≤ ins.opcode.arity)
    (spaced : Spaced (vs.map (fun v => decimal v.toNat) ++ ws) t)
    (other : ∀ w ∈ ws.head?, NoNumber w) :
    ∃ t', ins.loadArgs t = (ins.store vs, t') ∧ Spaced ws t' := by
  unfold loadArgs
  cases kind : ins.opcode with
  | «calc» =>
      rw [kind] at few
      obtain rfl := List.eq_nil_of_length_eq_zero (Nat.le_zero.mp few)
      exact ⟨t, rfl, spaced⟩
  | malloc =>
      rw [kind] at few
      change vs.length ≤ 2 at few
      rcases ins.scanArgs_spaced few spaced other with ⟨t₁, first, left⟩
      have none_left : Spaced ([].map (fun v : BitVec 32 => decimal v.toNat) ++ ws) t₁ := left
      rcases (ins.store vs).scanArgs_spaced (Nat.zero_le 1) none_left other with ⟨t₂, second, left'⟩
      refine ⟨t₂, ?_, left'⟩
      dsimp only
      rw [first]
      exact second
  | alloc =>
      rw [kind] at few
      exact ins.scanArgs_spaced few spaced other
  | free =>
      rw [kind] at few
      exact ins.scanArgs_spaced few spaced other
  | read =>
      rw [kind] at few
      exact ins.scanArgs_spaced few spaced other
  | write =>
      rw [kind] at few
      exact ins.scanArgs_spaced few spaced other

end Inst

section Loop
variable {text : Nat → Inst} {i left : Nat} {opcode t : List Char} {ws : List (List Char)}

theorem scanOpcode_spaced {w : List Char} (spaced : Spaced (w :: ws) t) (short : ¬ 10 ≤ w.length)
    (opcode : List Char) : ∃ t', scanOpcode opcode t = .ok (w, t') ∧ Spaced ws t' := by
  rcases spaced.scanS with ⟨t', read, later⟩
  refine ⟨t', ?_, later⟩
  rw [scanOpcode, read]
  exact if_neg short

/-- One round of the loop. -/
theorem loadLoop_round {opcode' t₁ t₂ : List Char} {op : Opcode} {ins : Inst}
    (read : scanOpcode opcode t = .ok (opcode', t₁)) (known : getOpcode opcode' = .ok op)
    (args : { text i with opcode := op }.loadArgs t₁ = (ins, t₂)) :
    loadLoop text i (left + 1) opcode t =
      (loadLoop text (i + 1) left opcode' t₂).map (ins :: ·) := by
  rw [loadLoop, read]
  dsimp only [bind, Except.bind]
  rw [known]
  dsimp only
  rw [args]
  rfl

theorem loadLoop_unknown {opcode' t₁ : List Char} {f : LoadFault}
    (read : scanOpcode opcode t = .ok (opcode', t₁)) (unknown : getOpcode opcode' = .error f) :
    loadLoop text i (left + 1) opcode t = .error f := by
  rw [loadLoop, read]
  dsimp only [bind, Except.bind]
  rw [unknown]

/-- A round on an instruction that may lack operands at the end of the text. -/
theorem loadLoop_op {op : Opcode} {vs : List (BitVec 32)} (few : vs.length ≤ op.arity)
    (spaced : Spaced (op.word :: (vs.map (fun v => decimal v.toNat) ++ ws)) t)
    (other : ∀ w ∈ ws.head?, NoNumber w) : ∃ ins t', ins.opcode = op ∧
      (vs.length = op.arity → ins.operands = vs) ∧ Spaced ws t' ∧
      loadLoop text i (left + 1) opcode t =
        (loadLoop text (i + 1) left op.word t').map (ins :: ·) := by
  rcases scanOpcode_spaced spaced op.word_length opcode with ⟨t₁, read, args⟩
  let ins : Inst := { text i with opcode := op }
  rcases @Inst.loadArgs_spaced ins vs ws t₁ few args other with ⟨t₂, loaded, later⟩
  exact ⟨ins.store vs, t₂, ins.store_opcode vs, fun all => Inst.store_operands all, later,
    loadLoop_round read op.getOpcode_word loaded⟩

theorem loadLoop_inst {ins : Inst} (spaced : Spaced (ins.words ++ ws) t)
    (other : ∀ w ∈ ws.head?, NoNumber w) : ∃ ins' t', ins'.written = ins.written ∧
      Spaced ws t' ∧ loadLoop text i (left + 1) opcode t =
        (loadLoop text (i + 1) left ins.opcode.word t').map (ins' :: ·) := by
  have all : ins.operands.length = ins.opcode.arity := by
    rw [Inst.operands, List.length_take]
    exact Nat.min_eq_left ins.opcode.arity_le
  rcases loadLoop_op all.le spaced other with ⟨ins', t', kind, args, later, loop⟩
  refine ⟨ins', t', ?_, later, loop⟩
  rw [Inst.written, kind, args all]
  rfl

theorem head_words {code : List Inst} (other : ∀ w ∈ ws.head?, NoNumber w) :
    ∀ w ∈ (code.flatMap Inst.words ++ ws).head?, NoNumber w := by
  cases code with
  | nil => exact other
  | cons ins code =>
      intro w first
      obtain rfl : ins.opcode.word = w := Option.some.inj first
      exact ins.opcode.word_noNumber

/-- The rounds of the loop on complete instructions, by induction on them; the buffer is left
with the opcode of the last one. -/
theorem loadLoop_code {code : List Inst} (spaced : Spaced (code.flatMap Inst.words ++ ws) t)
    (other : ∀ w ∈ ws.head?, NoNumber w) : ∃ code' opcode' t',
      code'.map Inst.written = code.map Inst.written ∧ Spaced ws t' ∧
      (code = [] → opcode' = opcode) ∧ (code ≠ [] → ∃ op : Opcode, opcode' = op.word) ∧
      loadLoop text i (code.length + left) opcode t =
        (loadLoop text (i + code.length) left opcode' t').map (code' ++ ·) := by
  induction code generalizing i opcode t with
  | nil =>
      refine ⟨[], opcode, t, rfl, spaced, fun _ => rfl, fun some => absurd rfl some, ?_⟩
      rw [List.length_nil, Nat.zero_add, Nat.add_zero]
      cases loadLoop text i left opcode t with
      | error f => rfl
      | ok rest => rfl
  | cons ins code ih =>
      rw [List.flatMap_cons, List.append_assoc] at spaced
      rcases @loadLoop_inst text i (code.length + left) opcode t _ ins spaced (head_words other)
        with ⟨ins', t₁, same, spaced₁, first⟩
      rcases @ih (i + 1) ins.opcode.word t₁ spaced₁ with ⟨code', opcode', t₂, same', spaced₂,
        last, known, later⟩
      refine ⟨ins' :: code', opcode', t₂, ?_, spaced₂, ?_, ?_, ?_⟩
      · rw [List.map_cons, List.map_cons, same, same']
      · intro none
        cases none
      · intro _
        by_cases single : code = []
        · exact ⟨ins.opcode, last single⟩
        · exact known single
      · rw [List.length_cons, Nat.add_right_comm, first, later, Nat.add_right_comm,
          Nat.add_assoc i]
        cases loadLoop text (i + (code.length + 1)) left opcode' t₂ with
        | error f => rfl
        | ok rest => rfl

end Loop

/-- The count is read modulo 2^32. -/
theorem load_header (u : Uninit) {priority : BitVec 32} {n : Nat} (few : n < 2 ^ 32)
    {ws : List (List Char)} {t : List Char}
    (spaced : Spaced (decimal priority.toNat :: decimal n :: ws) t) : ∃ t', Spaced ws t' ∧
      load u t = (loadLoop u.text 0 n u.opcode t').map (⟨priority, 0, BitVec.ofNat 32 n, ·⟩) := by
  rcases spaced.scanU with ⟨t₁, first, left₁⟩
  rcases left₁.skip.scanU with ⟨t₂, second, left₂⟩
  have value : (strtoul false n).setWidth 32 = BitVec.ofNat 32 n := by
    have same := strtoul_toNat (BitVec.ofNat 32 n)
    rwa [BitVec.toNat_ofNat, Nat.mod_eq_of_lt few] at same
  have header : scanf [.u, .space, .u] t = ([priority, BitVec.ofNat 32 n], t₂) := by
    rw [scanf, first, strtoul_toNat]
    dsimp only
    rw [scanf, scanf, second, value]
    rfl
  refine ⟨t₂, left₂, ?_⟩
  rw [load, header]
  change (do
    let text ← loadLoop u.text 0 (BitVec.ofNat 32 n).toNat u.opcode t₂
    return Loaded.mk priority 0 (BitVec.ofNat 32 n) text) = _
  rw [BitVec.toNat_ofNat, Nat.mod_eq_of_lt few]
  rfl

/-- load returns the program that the file says, wherever it left anything to chance. -/
def LoadsBack (u : Uninit) (priority : BitVec 32) (code : List Inst) (t : List Char) : Prop :=
  ∃ p, load u t = .ok p ∧ p.pc = 0 ∧ p.priority = priority ∧ p.size.toNat = code.length ∧
    p.text.map Inst.written = code.map Inst.written

/-- Every file of fewer than 2^32 instructions is loaded as it is written. -/
theorem load_written (u : Uninit) {priority : BitVec 32} {code : List Inst}
    (few : code.length < 2 ^ 32) {t : List Char} (written : Written priority code t) :
    LoadsBack u priority code t := by
  rcases load_header u few written with ⟨t₁, spaced, loaded⟩
  rw [← List.append_nil (code.flatMap Inst.words)] at spaced
  rcases @loadLoop_code u.text 0 0 u.opcode t₁ [] code spaced (by simp) with
    ⟨code', opcode', t₂, same, -, -, -, loop⟩
  refine ⟨⟨priority, 0, BitVec.ofNat 32 code.length, code' ++ []⟩, ?_, rfl, rfl, ?_, ?_⟩
  · rw [loaded]
    change (loadLoop u.text 0 (code.length + 0) u.opcode t₁).map _ = _
    rw [loop]
    rfl
  · exact Nat.mod_eq_of_lt few
  · rw [List.append_nil]
    exact same

theorem words_isWord (ins : Inst) : ∀ w ∈ ins.words, IsWord w := by
  intro w member
  rcases List.mem_cons.mp member with rfl | operand
  · exact ins.opcode.word_isWord
  · rcases List.mem_map.mp operand with ⟨v, -, rfl⟩
    exact decimal_isWord _

theorem fileWords_isWord (priority : BitVec 32) (code : List Inst) :
    ∀ w ∈ fileWords priority code, IsWord w := by
  intro w member
  rcases List.mem_cons.mp member with rfl | member
  · exact decimal_isWord _
  · rcases List.mem_cons.mp member with rfl | member
    · exact decimal_isWord _
    · rcases List.mem_flatMap.mp member with ⟨ins, -, inside⟩
      exact words_isWord ins w inside

/-- A file with one blank between two words. -/
theorem fileText_written (priority : BitVec 32) (code : List Inst) :
    Written priority code (text (fileWords priority code)) :=
  spaced_text (fileWords_isWord priority code)

/-- Memory that is all zero. -/
def Uninit.zero : Uninit := ⟨0, 0, fun _ => ⟨.calc, 0, 0, 0⟩, []⟩

theorem load_written_malloc : LoadsBack .zero 1 [⟨.malloc, 300, 4, 0⟩, ⟨.free, 4, 0, 0⟩]
    (text (fileWords 1 [⟨.malloc, 300, 4, 0⟩, ⟨.free, 4, 0, 0⟩])) :=
  load_written .zero (by decide) (fileText_written 1 _)

/-- The count of 2^32 instructions does not fit `size`. -/
theorem count_wraps : ¬ ∀ (u : Uninit) (priority : BitVec 32) (code : List Inst) (t : List Char),
    Written priority code t → LoadsBack u priority code t := by
  intro claim
  obtain ⟨code, many⟩ : ∃ code : List Inst, code.length = 2 ^ 32 :=
    ⟨List.replicate (2 ^ 32) ⟨.calc, 0, 0, 0⟩, List.length_replicate⟩
  rcases claim .zero 0 code _ (fileText_written 0 code) with ⟨p, -, -, -, size, -⟩
  exact absurd p.size.isLt (by omega)

end OsSim
