import OsSim.LoadRoundTrip

/-! Files that are cut off. A scan at the end of the file stores nothing and is not looked
at, so the loop goes on with the opcode it has: only a part of an opcode is noticed. -/
namespace OsSim
open Scanf

/-- A valid file that ends too soon: its header is there, but it is not a whole file. -/
structure CutOff (priority : BitVec 32) (code : List Inst) (t' : List Char) : Prop where
  few : code.length < 2 ^ 32
  whole : ∃ t, Written priority code t ∧ t' <+: t
  header : ∃ head, Spaced [decimal priority.toNat, decimal code.length] head ∧ head <+: t'
  incomplete : ¬ ∃ priority' code', Written priority' code' t'

/-- The first word of an instruction that is cut off, inside it. -/
structure PartOf (op : Opcode) (v : List Char) : Prop where
  some_chars : v ≠ []
  cut : v <+: op.word
  not_all : v ≠ op.word

/-- The last word of the text is a part of an opcode. -/
def EndsInOpcode (t : List Char) : Prop := ∃ ws v op, Spaced (ws ++ [v]) t ∧ PartOf op v

/-- What is left of an instruction that is cut off. -/
inductive Remnant : List (List Char) → Prop
  | nothing : Remnant []
  | opcode {op v} : PartOf op v → Remnant [v]
  | operands {op : Opcode} {vs : List (BitVec 32)} : vs.length < op.arity →
      Remnant (op.word :: vs.map fun v => decimal v.toNat)

theorem Remnant.noNumber {ws : List (List Char)} (remnant : Remnant ws) :
    ∀ w ∈ ws.head?, NoNumber w := by
  intro w first
  cases remnant with
  | nothing => cases first
  | @opcode op v part =>
      obtain rfl : v = w := Option.some.inj first
      rcases op.word_noNumber with ⟨c, rest, shown, plain⟩
      rcases part.cut with ⟨after, whole⟩
      cases v with
      | nil => exact absurd rfl part.some_chars
      | cons d v =>
          rw [shown, List.cons_append] at whole
          obtain ⟨rfl, -⟩ := List.cons.inj whole
          exact ⟨d, v, rfl, plain⟩
  | @operands op vs few =>
      obtain rfl : op.word = w := Option.some.inj first
      exact op.word_noNumber

section CutWords
variable {ws ws' : List (List Char)}

/-- Operands that are cut off: some are left, the last perhaps another number. -/
theorem cutWords_operands {vs : List (BitVec 32)}
    (cut : CutWords (vs.map (fun v => decimal v.toNat) ++ ws) ws') :
    (∃ us : List (BitVec 32), us.length ≤ vs.length ∧
      ws' = us.map fun v => decimal v.toNat) ∨
    ∃ ws₂, ws' = vs.map (fun v => decimal v.toNat) ++ ws₂ ∧ CutWords ws ws₂ := by
  induction vs generalizing ws' with
  | nil => exact .inr ⟨ws', rfl, cut⟩
  | cons v vs ih =>
      cases cut with
      | stop => exact .inl ⟨[], Nat.zero_le _, rfl⟩
      | @part d _ _ some_digits shorter =>
          rcases decimal_prefix shorter some_digits with ⟨m, below, rfl⟩
          have fits : (BitVec.ofNat 32 m).toNat = m := by
            rw [BitVec.toNat_ofNat, Nat.mod_eq_of_lt (below.trans_lt v.isLt)]
          refine .inl ⟨[BitVec.ofNat 32 m], Nat.succ_le_succ (Nat.zero_le _), ?_⟩
          rw [List.map_singleton, fits]
      | keep cut =>
          rcases ih cut with ⟨us, few, rfl⟩ | ⟨ws₂, rfl, later⟩
          · exact .inl ⟨v :: us, Nat.succ_le_succ few, rfl⟩
          · exact .inr ⟨ws₂, rfl, later⟩

/-- An instruction is complete when all its operands are there. -/
theorem remnant_or_complete (op : Opcode) {us : List (BitVec 32)} (few : us.length ≤ op.arity) :
    Remnant (op.word :: us.map fun v => decimal v.toNat) ∨
      ∃ ins : Inst, ins.words = op.word :: us.map fun v => decimal v.toNat := by
  rcases few.lt_or_eq with less | all
  · exact .inl (.operands less)
  · let blank : Inst := ⟨op, 0, 0, 0⟩
    have args : (blank.store us).operands = us := Inst.store_operands all
    refine .inr ⟨blank.store us, ?_⟩
    rw [Inst.words, args, Inst.store_opcode]

/-- Complete instructions and a remnant: fewer than `n`, or `n` and none. -/
def Remains (n : Nat) (ws : List (List Char)) : Prop :=
  ∃ (code' : List Inst) (part : List (List Char)), ws = code'.flatMap Inst.words ++ part ∧
    Remnant part ∧ (code'.length < n ∨ code'.length = n ∧ part = [])

theorem cutWords_code {code : List Inst} (cut : CutWords (code.flatMap Inst.words) ws') :
    Remains code.length ws' := by
  induction code generalizing ws' with
  | nil =>
      cases cut with
      | stop => exact ⟨[], [], rfl, .nothing, .inr ⟨rfl, rfl⟩⟩
  | cons ins code ih =>
      have one : ∀ us : List (BitVec 32), us.length ≤ ins.opcode.arity →
          ws' = ins.opcode.word :: us.map (fun v => decimal v.toNat) →
          Remains (ins :: code).length ws' := by
        rintro us few rfl
        rcases remnant_or_complete ins.opcode few with remnant | ⟨ins', words⟩
        · exact ⟨[], _, rfl, remnant, .inl (Nat.succ_pos _)⟩
        · refine ⟨[ins'], [], ?_, .nothing, ?_⟩
          · rw [List.flatMap_singleton, words, List.append_nil]
          · cases code with
            | nil => exact .inr ⟨rfl, rfl⟩
            | cons _ _ => exact .inl (Nat.succ_lt_succ (Nat.succ_pos _))
      cases cut with
      | stop => exact ⟨[], [], rfl, .nothing, .inl (Nat.succ_pos _)⟩
      | @part v _ _ some_chars shorter =>
          by_cases all : v = ins.opcode.word
          · exact one [] (Nat.zero_le _) (congrArg (· :: []) all)
          · exact ⟨[], [v], rfl, .opcode ⟨some_chars, shorter, all⟩, .inl (Nat.succ_pos _)⟩
      | keep cut =>
          rcases cutWords_operands cut with ⟨us, few, rfl⟩ | ⟨ws₂, rfl, later⟩
          · refine one us (few.trans ?_) rfl
            rw [Inst.operands, List.length_take]
            exact Nat.min_le_left _ _
          · rcases ih later with ⟨code', part, rfl, remnant, short⟩
            refine ⟨ins :: code', part, ?_, remnant, ?_⟩
            · rw [List.flatMap_cons, List.append_assoc]
              rfl
            · rcases short with less | ⟨same, none_left⟩
              · exact .inl (Nat.succ_lt_succ less)
              · exact .inr ⟨congrArg Nat.succ same, none_left⟩

end CutWords
/-- The words that are left of a valid file that ends too soon. -/
theorem CutOff.words {priority : BitVec 32} {code : List Inst} {t' : List Char}
    (cut : CutOff priority code t') : ∃ (code' : List Inst) (part : List (List Char)),
      Spaced (decimal priority.toNat :: decimal code.length :: (code'.flatMap Inst.words ++ part))
        t' ∧ Remnant part ∧ code'.length < code.length := by
  rcases cut.whole with ⟨t, written, short⟩
  rcases written.cut short with ⟨us, words, spaced⟩
  rcases cut.header with ⟨head, header, inside⟩
  rcases spaced.cut inside with ⟨hs, words', spaced'⟩
  obtain rfl := spaced'.unique header
  rcases words.between words' with ⟨ws', rfl, rest⟩
  rcases cutWords_code rest with ⟨code', part, rfl, remnant, less | ⟨same, rfl⟩⟩
  · exact ⟨code', part, spaced, remnant, less⟩
  · refine absurd ⟨priority, code', ?_⟩ cut.incomplete
    rw [Written, fileWords, same, ← List.append_nil (code'.flatMap Inst.words)]
    exact spaced

theorem getOpcode_unknown {opt : List Char} :
    getOpcode opt = .error .unknownOpcode ↔ ∀ op : Opcode, opt ≠ op.word := by
  constructor
  · rintro unknown op rfl
    rw [op.getOpcode_word] at unknown
    cases unknown
  · intro other
    cases result : getOpcode opt with
    | ok op => exact absurd (Opcode.getOpcode_eq_ok result) (other op)
    | error f =>
        unfold getOpcode at result
        split_ifs at result
        cases result
        rfl

/-- No opcode is a part of another one. -/
theorem PartOf.unknown {op : Opcode} {v : List Char} (part : PartOf op v) (op' : Opcode) :
    v ≠ op'.word := by
  rintro rfl
  have cut := part.cut
  have not_all := part.not_all
  revert cut not_all
  cases op <;> cases op' <;> decide

theorem PartOf.not_decimal {op : Opcode} {v : List Char} (part : PartOf op v) (n : Nat) :
    v ≠ decimal n := by
  rintro rfl
  rcases Remnant.noNumber (.opcode part) _ rfl with ⟨c, rest, shown, -, -, plain⟩
  have digit : c.isDigit = true := decimal_digits (shown ▸ List.mem_cons_self)
  rw [digit] at plain
  cases plain

theorem PartOf.short {op : Opcode} {v : List Char} (part : PartOf op v) : ¬ 10 ≤ v.length := by
  have := part.cut.length_le
  have := op.word_length
  omega

section Loop
variable {text : Nat → Inst} {i left : Nat} {opcode t : List Char}

/-- At the end of the file the loop makes one more instruction of the opcode it has. -/
theorem loadLoop_exhausted (op : Opcode) (spaced : Spaced [] t) :
    ∃ code, loadLoop text i left op.word t = .ok code := by
  induction left generalizing i t with
  | zero => exact ⟨[], rfl⟩
  | succ left ih =>
      rcases spaced.scanS_fails with ⟨t₁, none_read, left₁⟩
      let ins : Inst := { text i with opcode := op }
      rcases @Inst.loadArgs_spaced ins [] [] t₁ (Nat.zero_le _) left₁ (by simp) with
        ⟨t₂, loaded, left₂⟩
      rcases @ih (i + 1) t₂ left₂ with ⟨code, rest⟩
      have read : scanOpcode op.word t = .ok (op.word, t₁) := by
        rw [scanOpcode, none_read]
      refine ⟨ins.store [] :: code, ?_⟩
      rw [loadLoop_round read op.getOpcode_word loaded, rest]
      rfl

/-- The loop at a remnant, with a round to go: it stops at a part of an opcode, or with
none at all in a buffer that has had no opcode yet. -/
theorem loadLoop_remnant {part : List (List Char)} (remnant : Remnant part)
    (spaced : Spaced part t) : loadLoop text i (left + 1) opcode t = .error .unknownOpcode ↔
      (∃ v op, part = [v] ∧ PartOf op v) ∨ part = [] ∧ ∀ op : Opcode, opcode ≠ op.word := by
  cases remnant with
  | nothing =>
      rw [or_iff_right (by simp), and_iff_right rfl, ← getOpcode_unknown]
      cases result : getOpcode opcode with
      | ok op =>
          rw [Opcode.getOpcode_eq_ok result]
          rcases @loadLoop_exhausted text i (left + 1) t op spaced with ⟨code, loops⟩
          rw [loops]
          simp
      | error f =>
          rcases spaced.scanS_fails with ⟨t₁, none_read, -⟩
          have read : scanOpcode opcode t = .ok (opcode, t₁) := by
            rw [scanOpcode, none_read]
          rw [loadLoop_unknown read result]
          exact Iff.of_eq (by simp)
  | @opcode op v part =>
      rcases scanOpcode_spaced spaced part.short opcode with ⟨t₁, read, -⟩
      have unknown := getOpcode_unknown.mpr part.unknown
      exact iff_of_true (loadLoop_unknown read unknown) (.inl ⟨v, op, rfl, part⟩)
  | @operands op vs few =>
      rw [← List.append_nil (vs.map _)] at spaced
      rcases @loadLoop_op text i left opcode t [] op vs few.le spaced (by simp) with
        ⟨ins, t₁, -, -, left₁, loop⟩
      rcases @loadLoop_exhausted text (i + 1) left t₁ op left₁ with ⟨code, rest⟩
      rw [loop, rest]
      refine iff_of_false ?_ ?_
      · intro rejected
        cases rejected
      · rintro (⟨v, op', same, part⟩ | ⟨none_left, -⟩)
        · exact part.unknown op (List.cons.inj same).1.symm
        · cases none_left

end Loop

/-- Among the words that are left, only the remnant can be a part of an opcode. -/
theorem Remnant.eq_part {part : List (List Char)} (remnant : Remnant part) {code : List Inst}
    {m n : Nat} {op : Opcode} {v : List Char} (inside : PartOf op v)
    (member : v ∈ decimal m :: decimal n :: (code.flatMap Inst.words ++ part)) :
    ∃ op', part = [v] ∧ PartOf op' v := by
  rcases List.mem_cons.mp member with number | member
  · exact absurd number (inside.not_decimal m)
  · rcases List.mem_cons.mp member with number | member
    · exact absurd number (inside.not_decimal n)
    · rcases List.mem_append.mp member with complete | left
      · rcases List.mem_flatMap.mp complete with ⟨ins, -, word⟩
        rcases List.mem_cons.mp word with whole | operand
        · exact absurd whole (inside.unknown ins.opcode)
        · rcases List.mem_map.mp operand with ⟨a, -, number⟩
          exact absurd number.symm (inside.not_decimal a.toNat)
      · cases remnant with
        | nothing => cases left
        | @opcode op' v' part' =>
            obtain rfl := List.mem_singleton.mp left
            exact ⟨op', rfl, part'⟩
        | @operands op' vs few =>
            rcases List.mem_cons.mp left with whole | operand
            · exact absurd whole (inside.unknown op')
            · rcases List.mem_map.mp operand with ⟨a, -, number⟩
              exact absurd number.symm (inside.not_decimal a.toNat)

/-- A valid file that ends too soon is rejected exactly if it ends inside an opcode, or if
it has no instruction at all and the buffer happens to hold no opcode. -/
theorem load_rejects_iff (u : Uninit) {priority : BitVec 32} {code : List Inst} {t : List Char}
    (cut : CutOff priority code t) : load u t = .error .unknownOpcode ↔
      EndsInOpcode t ∨ Spaced [decimal priority.toNat, decimal code.length] t ∧
        ∀ op : Opcode, u.opcode ≠ op.word := by
  rcases cut.words with ⟨code', part, spaced, remnant, less⟩
  rcases load_header u cut.few spaced with ⟨t₁, spaced₁, loaded⟩
  obtain ⟨left, count⟩ : ∃ left, code.length = code'.length + (left + 1) :=
    ⟨code.length - code'.length - 1, by omega⟩
  rcases @loadLoop_code u.text 0 (left + 1) u.opcode t₁ part code' spaced₁ remnant.noNumber with
    ⟨done, opcode', t₂, -, spaced₂, none_read, some_read, loop⟩
  have rejects : load u t = .error .unknownOpcode ↔
      loadLoop u.text (0 + code'.length) (left + 1) opcode' t₂ = .error .unknownOpcode := by
    rw [loaded, count, loop]
    cases loadLoop u.text (0 + code'.length) (left + 1) opcode' t₂ with
    | error f => exact Iff.of_eq (by simp [Except.map])
    | ok rest => exact Iff.of_eq (by simp [Except.map])
  rw [rejects, loadLoop_remnant remnant spaced₂]
  constructor
  · rintro (⟨v, op, rfl, inside⟩ | ⟨rfl, unknown⟩)
    · exact .inl ⟨decimal priority.toNat :: decimal code.length :: code'.flatMap Inst.words, v, op,
        spaced, inside⟩
    · by_cases empty : code' = []
      · subst empty
        rw [none_read rfl] at unknown
        exact .inr ⟨spaced, unknown⟩
      · rcases some_read empty with ⟨op, known⟩
        exact absurd known (unknown op)
  · rintro (⟨ws, v, op, spaced', inside⟩ | ⟨header, unknown⟩)
    · have member : v ∈ decimal priority.toNat :: decimal code.length ::
          (code'.flatMap Inst.words ++ part) := by
        rw [← spaced'.unique spaced]
        exact List.mem_append_right _ List.mem_cons_self
      rcases remnant.eq_part inside member with ⟨op', same, inside'⟩
      exact .inl ⟨v, op', same, inside'⟩
    · have same := spaced.unique header
      have nothing := (List.cons.inj (List.cons.inj same).2).2
      obtain ⟨no_words, rfl⟩ := List.append_eq_nil_iff.mp nothing
      have empty : code' = [] := by
        cases code' with
        | nil => rfl
        | cons ins code' => cases no_words
      rw [none_read empty]
      exact .inr ⟨rfl, unknown⟩

theorem code_length_le (code : List Inst) : code.length ≤ (code.flatMap Inst.words).length := by
  induction code with
  | nil => exact Nat.zero_le _
  | cons ins code ih =>
      rw [List.flatMap_cons, List.length_append, Inst.words]
      simp only [List.length_cons]
      omega

/-- A file with fewer words than instructions is not whole. -/
theorem incomplete_of_words {m n : Nat} {ws : List (List Char)} {t : List Char}
    (spaced : Spaced (decimal m :: decimal n :: ws) t) (few : ws.length < n) :
    ¬ ∃ priority code, Written priority code t := by
  rintro ⟨priority, code, written⟩
  have same := (List.cons.inj (written.unique spaced)).2
  obtain ⟨count, words⟩ := List.cons.inj same
  have := code_length_le code
  rw [words, decimal_inj count] at this
  omega

/-- What is left of "1 2 calc calc" after so much of the first opcode. -/
theorem cut_calc {v : List Char} (some_chars : v ≠ []) (cut : v <+: optCalc) :
    CutOff 1 [⟨.calc, 0, 0, 0⟩, ⟨.calc, 0, 0, 0⟩] (text [decimal 1, decimal 2, v]) where
  few := by decide
  whole := by
    refine ⟨_, fileText_written _ _, ?_⟩
    rcases cut with ⟨after, rest⟩
    refine ⟨after ++ ' ' :: optCalc, ?_⟩
    simp [text, fileWords, Inst.words, Inst.operands, Opcode.arity, Opcode.word, ← rest]
  header := by
    refine ⟨text [decimal 1, decimal 2], spaced_text ?_, ' ' :: v, ?_⟩
    · simp [decimal_isWord]
    · simp [text]
  incomplete := by
    have word : IsWord v := Opcode.calc.word_isWord.start cut some_chars
    have words : ∀ w ∈ [decimal 1, decimal 2, v], IsWord w := by simp [decimal_isWord, word]
    exact incomplete_of_words (spaced_text words) Nat.one_lt_two

theorem load_rejects_iff_calc :
    load .zero (text [decimal 1, decimal 2, ['c']]) = .error .unknownOpcode := by
  have word : IsWord ['c'] := Opcode.calc.word_isWord.start ⟨_, rfl⟩ (by decide)
  refine (load_rejects_iff .zero (cut_calc (by decide) ⟨_, rfl⟩)).mpr
    (.inl ⟨[decimal 1, decimal 2], ['c'], .calc, spaced_text ?_, by decide, ⟨_, rfl⟩, by decide⟩)
  simp [decimal_isWord, word]

/-- "1 2 calc" is loaded as two instructions. -/
theorem calc_invented : ¬ ∀ (u : Uninit) (priority : BitVec 32) (code : List Inst)
    (t : List Char), CutOff priority code t → load u t = .error .unknownOpcode := by
  intro claim
  have rejected := claim .zero _ _ _ (cut_calc (by decide) (List.prefix_refl optCalc))
  have loaded : load .zero (text [decimal 1, decimal 2, optCalc]) =
      .ok ⟨1, 0, 2, [⟨.calc, 0, 0, 0⟩, ⟨.calc, 0, 0, 0⟩]⟩ := by
    decide +kernel
  cases loaded.symm.trans rejected

end OsSim
