import Mathlib.Algebra.GroupWithZero.Nat
import Mathlib.Data.List.Basic

/-! fscanf of the C library for the directives %u, %d, %lu, %s and white space, on a text that is
read from its start. A text is taken apart into its words: what is scanned depends on the
words alone, and not on the white space between them. -/
namespace Scanf

def isSpace (c : Char) : Bool :=
  c = ' ' || c = '\t' || c = '\n' || c = '\x0b' || c = '\x0c' || c = '\r'

/-- A white-space directive. -/
def skip (t : List Char) : List Char := t.dropWhile isSpace

/-- strtoul in base 10: a number that does not fit gives the largest one. -/
def strtoul (negative : Bool) (n : Nat) : BitVec 64 :=
  if 2 ^ 64 ≤ n then -1 else if negative then -BitVec.ofNat 64 n else BitVec.ofNat 64 n

def sign : List Char → Bool × List Char
  | '-' :: t => (true, t)
  | '+' :: t => (false, t)
  | t => (false, t)

/-- %u: the number that is stored, if one is, and what is left of the text. A sign without
digits is read all the same. -/
def scanU (t : List Char) : Option (BitVec 32) × List Char :=
  let (negative, t) := sign (skip t)
  match t.takeWhile Char.isDigit with
  | [] => (none, t)
  | ds => (some ((strtoul negative (Nat.ofDigitChars 10 ds 0)).setWidth 32),
      t.dropWhile Char.isDigit)

/-- What the directives for numbers have in common: the sign and the value of the digits. -/
def scanNumber (t : List Char) : Option (Bool × Nat) × List Char :=
  let (negative, t) := sign (skip t)
  match t.takeWhile Char.isDigit with
  | [] => (none, t)
  | ds => (some (negative, Nat.ofDigitChars 10 ds 0), t.dropWhile Char.isDigit)

/-- strtol in base 10: a number that does not fit gives the one next to it. -/
def strtol (negative : Bool) (n : Nat) : BitVec 64 :=
  if negative then if 2 ^ 63 < n then BitVec.intMin 64 else -BitVec.ofNat 64 n
  else if 2 ^ 63 ≤ n then BitVec.intMax 64 else BitVec.ofNat 64 n

/-- %d. -/
def scanD (t : List Char) : Option (BitVec 32) × List Char :=
  ((scanNumber t).1.map fun r => (strtol r.1 r.2).setWidth 32, (scanNumber t).2)

/-- %lu. -/
def scanLu (t : List Char) : Option (BitVec 64) × List Char :=
  ((scanNumber t).1.map fun r => strtoul r.1 r.2, (scanNumber t).2)

/-- %s: the word that is stored, if one is left. -/
def scanS (t : List Char) : Option (List Char) × List Char :=
  match (skip t).takeWhile (!isSpace ·) with
  | [] => (none, skip t)
  | w => (some w, (skip t).dropWhile (!isSpace ·))

inductive Directive where
  | u
  | space

/-- fscanf stops at the first directive that fails; the numbers before it are stored. -/
def scanf : List Directive → List Char → List (BitVec 32) × List Char
  | [], t => ([], t)
  | .space :: fmt, t => scanf fmt (skip t)
  | .u :: fmt, t =>
      match scanU t with
      | (none, t) => ([], t)
      | (some v, t) => (v :: (scanf fmt t).1, (scanf fmt t).2)

/-- "%u\n", "%u %u\n" and so on. -/
def uints : Nat → List Directive
  | 0 => []
  | n + 1 => .u :: .space :: uints n

/-- A number as it is printed. -/
def decimal (n : Nat) : List Char := Nat.toDigits 10 n

def IsWord (w : List Char) : Prop := w ≠ [] ∧ ∀ c ∈ w, isSpace c = false

-- `Char` would decide this by a search through all characters
instance : DecidablePred IsWord :=
  fun _ => @instDecidableAnd _ _ inferInstance (List.decidableBAll _ _)

/-- The text is these words, with white space between them and perhaps around them. -/
inductive Spaced : List (List Char) → List Char → Prop
  | done {t} : (∀ c ∈ t, isSpace c = true) → Spaced [] t
  | word {lead w rest ws} : (∀ c ∈ lead, isSpace c = true) → IsWord w →
      (∀ c ∈ rest.head?, isSpace c = true) → Spaced ws rest → Spaced (w :: ws) (lead ++ (w ++ rest))

/-- What no number starts with. -/
def NoNumber (w : List Char) : Prop :=
  ∃ c rest, w = c :: rest ∧ c ≠ '-' ∧ c ≠ '+' ∧ c.isDigit = false

section Chars
variable {p : Char → Bool} {w rest : List Char}

theorem takeWhile_stops (all : ∀ c ∈ w, p c = true) (stop : ∀ c ∈ rest.head?, p c = false) :
    (w ++ rest).takeWhile p = w := by
  rw [List.takeWhile_append_of_pos all]
  cases rest with
  | nil => exact List.append_nil w
  | cons c rest => rw [List.takeWhile_cons_of_neg (by simp [stop c rfl]), List.append_nil]

theorem dropWhile_stops (all : ∀ c ∈ w, p c = true) (stop : ∀ c ∈ rest.head?, p c = false) :
    (w ++ rest).dropWhile p = rest := by
  rw [List.dropWhile_append_of_pos all]
  cases rest with
  | nil => rfl
  | cons c rest => exact List.dropWhile_cons_of_neg (by simp [stop c rfl])

theorem digit_not_space {c : Char} (digit : c.isDigit = true) : isSpace c = false := by
  cases space : isSpace c with
  | false => rfl
  | true =>
      simp only [isSpace, Bool.or_eq_true, decide_eq_true_eq, or_assoc] at space
      rcases space with rfl | rfl | rfl | rfl | rfl | rfl <;> cases digit

theorem space_not_digit {c : Char} (space : isSpace c = true) : c.isDigit = false := by
  cases digit : c.isDigit with
  | false => rfl
  | true =>
      rw [digit_not_space digit] at space
      cases space

end Chars

section Decimal

theorem decimal_digits {n : Nat} {c : Char} (member : c ∈ decimal n) : c.isDigit = true :=
  Nat.isDigit_of_mem_toDigits (by decide) (by decide) member

theorem decimal_isWord (n : Nat) : IsWord (decimal n) :=
  ⟨Nat.toDigits_ne_nil, fun _ member => digit_not_space (decimal_digits member)⟩

theorem decimal_inj {m n : Nat} (same : decimal m = decimal n) : m = n := by
  have value := congrArg (Nat.ofDigitChars 10 · 0) same
  simpa only [decimal, Nat.ofDigitChars_ten_toDigits] using value

/-- A number that is cut off is a number. -/
theorem decimal_prefix {n : Nat} {v : List Char} (cut : v <+: decimal n) (some_digits : v ≠ []) :
    ∃ m, m ≤ n ∧ v = decimal m := by
  induction n using Nat.strongRecOn with
  | ind n ih =>
      by_cases small : n < 10
      · rw [decimal, Nat.toDigits_of_lt_base small] at cut
        rcases List.prefix_cons_iff.mp cut with nil | ⟨rest, rfl, nil⟩
        · exact absurd nil some_digits
        · obtain rfl := List.prefix_nil.mp nil
          exact ⟨n, Nat.le_refl n, (Nat.toDigits_of_lt_base small).symm⟩
      · have split : decimal n = decimal (n / 10) ++ [(n % 10).digitChar] :=
          Nat.toDigits_of_base_le (by decide) (Nat.not_lt.mp small)
        rw [split] at cut
        rcases List.prefix_concat_iff.mp cut with whole | shorter
        · exact ⟨n, Nat.le_refl n, whole.trans split.symm⟩
        · rcases ih (n / 10) (by omega) shorter with ⟨m, below, same⟩
          exact ⟨m, by omega, same⟩

end Decimal
section Words
variable {w : List Char} {ws : List (List Char)} {t : List Char}

theorem IsWord.head (word : IsWord w) (rest : List Char) :
    ∀ c ∈ (w ++ rest).head?, isSpace c = false := by
  intro c first
  cases w with
  | nil => exact absurd rfl word.1
  | cons d w =>
      obtain rfl : d = c := Option.some.inj first
      exact word.2 d List.mem_cons_self

theorem skip_word {lead : List Char} (spaces : ∀ c ∈ lead, isSpace c = true) (word : IsWord w)
    (rest : List Char) : skip (lead ++ (w ++ rest)) = w ++ rest :=
  dropWhile_stops spaces (word.head rest)

theorem skip_done (spaces : ∀ c ∈ t, isSpace c = true) : skip t = [] := by
  have stop := @dropWhile_stops isSpace t [] spaces (by simp)
  rwa [List.append_nil] at stop

theorem sign_none (other : ∀ c ∈ t.head?, c ≠ '-' ∧ c ≠ '+') : sign t = (false, t) := by
  unfold sign
  split
  · exact absurd rfl (other '-' rfl).1
  · exact absurd rfl (other '+' rfl).2
  · rfl

theorem Spaced.skip (spaced : Spaced ws t) : Spaced ws (skip t) := by
  cases spaced with
  | done spaces =>
      rw [skip_done spaces]
      exact .done (List.forall_mem_nil _)
  | word spaces word ended rest =>
      rw [skip_word spaces word]
      exact @Spaced.word [] _ _ _ (List.forall_mem_nil _) word ended rest

theorem scanU_eq (t : List Char) : Scanf.scanU t =
    ((scanNumber t).1.map fun r => (strtoul r.1 r.2).setWidth 32, (scanNumber t).2) := by
  rw [Scanf.scanU, scanNumber]
  dsimp only
  split
  · rfl
  · rfl

/-- A printed number is read back, and nothing after it. -/
theorem Spaced.scanNumber {n : Nat} (spaced : Spaced (decimal n :: ws) t) :
    ∃ t', Scanf.scanNumber t = (some (false, n), t') ∧ Spaced ws t' := by
  cases spaced with
  | @word lead _ rest _ spaces word ended later =>
      refine ⟨rest, ?_, later⟩
      have stop : ∀ c ∈ rest.head?, c.isDigit = false := fun c first =>
        space_not_digit (ended c first)
      have digits : ∀ c ∈ decimal n, c.isDigit = true := fun c member => decimal_digits member
      have unsigned : sign (decimal n ++ rest) = (false, decimal n ++ rest) := by
        apply sign_none
        intro c first
        have digit : c.isDigit = true := by
          cases shown : decimal n with
          | nil => exact absurd shown word.1
          | cons d ds =>
              rw [shown] at first
              obtain rfl : d = c := Option.some.inj first
              exact digits d (shown ▸ List.mem_cons_self)
        constructor
        · rintro rfl
          cases digit
        · rintro rfl
          cases digit
      rw [Scanf.scanNumber, skip_word spaces word, unsigned]
      dsimp only
      rw [takeWhile_stops digits stop, dropWhile_stops digits stop]
      split
      · rename_i none
        exact absurd none word.1
      · rw [decimal, Nat.ofDigitChars_ten_toDigits]

/-- A word that is not a number stays unread. -/
theorem Spaced.scanNumber_fails (spaced : Spaced ws t) (other : ∀ w ∈ ws.head?, NoNumber w) :
    ∃ t', Scanf.scanNumber t = (none, t') ∧ Spaced ws t' := by
  refine ⟨Scanf.skip t, ?_, spaced.skip⟩
  have first : ∀ c ∈ (Scanf.skip t).head?, c ≠ '-' ∧ c ≠ '+' ∧ c.isDigit = false := by
    cases spaced with
    | done spaces => simp [skip_done spaces]
    | word spaces word _ _ =>
        rcases other _ rfl with ⟨c, w, rfl, plain⟩
        rw [skip_word spaces word]
        intro d first
        exact Option.some.inj first ▸ plain
  have unsigned : sign (Scanf.skip t) = (false, Scanf.skip t) :=
    sign_none fun c member => ⟨(first c member).1, (first c member).2.1⟩
  have none_read : (Scanf.skip t).takeWhile Char.isDigit = [] :=
    takeWhile_stops (w := []) (List.forall_mem_nil _) fun c member => (first c member).2.2
  rw [Scanf.scanNumber, unsigned]
  dsimp only
  rw [none_read]

theorem Spaced.scanU {n : Nat} (spaced : Spaced (decimal n :: ws) t) :
    ∃ t', Scanf.scanU t = (some ((strtoul false n).setWidth 32), t') ∧ Spaced ws t' := by
  rcases spaced.scanNumber with ⟨t', read, left⟩
  refine ⟨t', ?_, left⟩
  rw [scanU_eq, read]
  rfl

theorem Spaced.scanU_fails (spaced : Spaced ws t) (other : ∀ w ∈ ws.head?, NoNumber w) :
    ∃ t', Scanf.scanU t = (none, t') ∧ Spaced ws t' := by
  rcases spaced.scanNumber_fails other with ⟨t', none_read, left⟩
  refine ⟨t', ?_, left⟩
  rw [scanU_eq, none_read]
  rfl

/-- %d reads a number of 32 bits that is printed without its sign. -/
theorem Spaced.scanD {v : BitVec 32} (spaced : Spaced (decimal v.toNat :: ws) t) :
    ∃ t', Scanf.scanD t = (some v, t') ∧ Spaced ws t' := by
  rcases spaced.scanNumber with ⟨t', read, left⟩
  refine ⟨t', ?_, left⟩
  have small := v.isLt
  have value : (strtol false v.toNat).setWidth 32 = v := by
    rw [strtol, if_neg Bool.false_ne_true, if_neg (by omega)]
    apply BitVec.eq_of_toNat_eq
    rw [BitVec.toNat_setWidth, BitVec.toNat_ofNat]
    omega
  rw [Scanf.scanD, read]
  exact congrArg (some ·, t') value

theorem Spaced.scanLu {v : BitVec 64} (spaced : Spaced (decimal v.toNat :: ws) t) :
    ∃ t', Scanf.scanLu t = (some v, t') ∧ Spaced ws t' := by
  rcases spaced.scanNumber with ⟨t', read, left⟩
  refine ⟨t', ?_, left⟩
  have value : strtoul false v.toNat = v := by
    rw [strtoul, if_neg (Nat.not_le.mpr v.isLt), if_neg Bool.false_ne_true, BitVec.ofNat_toNat,
      BitVec.setWidth_eq]
  rw [Scanf.scanLu, read]
  exact congrArg (some ·, t') value

theorem Spaced.scanLu_fails (spaced : Spaced ws t) (other : ∀ w ∈ ws.head?, NoNumber w) :
    ∃ t', Scanf.scanLu t = (none, t') ∧ Spaced ws t' := by
  rcases spaced.scanNumber_fails other with ⟨t', none_read, left⟩
  refine ⟨t', ?_, left⟩
  rw [Scanf.scanLu, none_read]
  rfl

theorem strtoul_toNat (v : BitVec 32) : (strtoul false v.toNat).setWidth 32 = v := by
  have small := v.isLt
  rw [strtoul, if_neg (by omega), if_neg Bool.false_ne_true]
  apply BitVec.eq_of_toNat_eq
  rw [BitVec.toNat_setWidth, BitVec.toNat_ofNat]
  omega

theorem Spaced.scanS (spaced : Spaced (w :: ws) t) :
    ∃ t', Scanf.scanS t = (some w, t') ∧ Spaced ws t' := by
  cases spaced with
  | @word lead _ rest _ spaces word ended later =>
      refine ⟨rest, ?_, later⟩
      have inside : ∀ c ∈ w, (!isSpace c) = true := fun c member => by simp [word.2 c member]
      have stop : ∀ c ∈ rest.head?, (!isSpace c) = false := fun c first => by simp [ended c first]
      rw [Scanf.scanS, skip_word spaces word, takeWhile_stops inside stop,
        dropWhile_stops inside stop]
      split
      · exact absurd rfl word.1
      · rfl

theorem Spaced.scanS_fails (spaced : Spaced [] t) :
    ∃ t', Scanf.scanS t = (none, t') ∧ Spaced [] t' := by
  cases spaced with
  | done spaces =>
      refine ⟨[], ?_, .done (List.forall_mem_nil _)⟩
      rw [Scanf.scanS, skip_done spaces]
      rfl

/-- Numbers are read as long as there are some, and then nothing is. -/
theorem Spaced.scanf_uints {n : Nat} {vs : List (BitVec 32)} (few : vs.length ≤ n)
    (spaced : Spaced (vs.map (fun v => decimal v.toNat) ++ ws) t)
    (other : vs.length < n → ∀ w ∈ ws.head?, NoNumber w) :
    ∃ t', scanf (uints n) t = (vs, t') ∧ Spaced ws t' := by
  induction n generalizing vs t with
  | zero =>
      obtain rfl := List.eq_nil_of_length_eq_zero (Nat.le_zero.mp few)
      exact ⟨t, rfl, spaced⟩
  | succ n ih =>
      cases vs with
      | nil =>
          rcases spaced.scanU_fails (other (Nat.succ_pos n)) with ⟨t', read, left⟩
          refine ⟨t', ?_, left⟩
          rw [uints, scanf, read]
      | cons v vs =>
          rcases spaced.scanU with ⟨t₁, read, left⟩
          rcases ih (Nat.le_of_succ_le_succ few) left.skip
            (fun less => other (Nat.succ_lt_succ less)) with ⟨t₂, later, left'⟩
          refine ⟨t₂, ?_, left'⟩
          rw [uints, scanf, read, strtoul_toNat]
          dsimp only
          rw [scanf, later]

end Words

/-- The words as a text: one blank between two of them. -/
def text : List (List Char) → List Char
  | [] => []
  | w :: ws => w ++ ws.flatMap (' ' :: ·)

/-- The words of a text that is cut off: of the last one a part may be left. -/
inductive CutWords : List (List Char) → List (List Char) → Prop
  | stop {ws} : CutWords ws []
  | part {v w ws} : v ≠ [] → v <+: w → CutWords (w :: ws) [v]
  | keep {w ws ws'} : CutWords ws ws' → CutWords (w :: ws) (w :: ws')

section Texts
variable {ws ws' : List (List Char)} {t t' : List Char}

theorem IsWord.start {v w : List Char} (word : IsWord w) (cut : v <+: w) (some_chars : v ≠ []) :
    IsWord v :=
  ⟨some_chars, fun c member => word.2 c (cut.mem member)⟩

theorem spaced_text (words : ∀ w ∈ ws, IsWord w) : Spaced ws (text ws) := by
  have blanks : ∀ us : List (List Char), (∀ w ∈ us, IsWord w) →
      Spaced us (us.flatMap (' ' :: ·)) := by
    intro us words
    induction us with
    | nil => exact .done (List.forall_mem_nil _)
    | cons w us ih =>
        have later := ih fun u member => words u (List.mem_cons_of_mem _ member)
        refine @Spaced.word [' '] w _ _ (by simp [isSpace]) (words w List.mem_cons_self) ?_ later
        cases us with
        | nil => simp
        | cons u us => simp [isSpace]
  cases ws with
  | nil => exact blanks [] words
  | cons w ws =>
      have later := blanks ws fun u member => words u (List.mem_cons_of_mem _ member)
      refine @Spaced.word [] w _ _ (List.forall_mem_nil _) (words w List.mem_cons_self) ?_ later
      cases ws with
      | nil => simp
      | cons u us => simp [isSpace]

/-- A text that is cut off still has the words before the cut. -/
theorem Spaced.cut (spaced : Spaced ws t) (cut : t' <+: t) :
    ∃ ws', CutWords ws ws' ∧ Spaced ws' t' := by
  induction spaced generalizing t' with
  | done spaces => exact ⟨[], .stop, .done fun c member => spaces c (cut.mem member)⟩
  | @word lead w rest ws spaces word ended _ ih =>
      rcases List.prefix_or_prefix_of_prefix cut (List.prefix_append lead _) with short | ⟨s, rfl⟩
      · exact ⟨[], .stop, .done fun c member => spaces c (short.mem member)⟩
      · replace cut := (List.prefix_append_right_inj lead).mp cut
        rcases List.prefix_or_prefix_of_prefix cut (List.prefix_append w _) with short | ⟨r, rfl⟩
        · by_cases none_left : s = []
          · subst none_left
            refine ⟨[], .stop, .done ?_⟩
            rwa [List.append_nil]
          · refine ⟨[s], .part none_left short, ?_⟩
            have only := @Spaced.word lead s [] [] spaces (word.start short none_left) (by simp)
              (.done (List.forall_mem_nil _))
            rwa [List.append_nil] at only
        · replace cut := (List.prefix_append_right_inj w).mp cut
          rcases ih cut with ⟨ws', words, left⟩
          refine ⟨w :: ws', .keep words, .word spaces word ?_ left⟩
          intro c first
          rcases cut with ⟨after, rfl⟩
          cases r with
          | nil => cases first
          | cons d r => exact ended c first

/-- A text has its words from what %s reads of it. -/
theorem Spaced.unique (spaced : Spaced ws t) (spaced' : Spaced ws' t) : ws = ws' := by
  induction ws generalizing ws' t with
  | nil =>
      cases ws' with
      | nil => rfl
      | cons w ws' =>
          rcases spaced.scanS_fails with ⟨t₁, none_read, -⟩
          rcases spaced'.scanS with ⟨t₂, read, -⟩
          cases none_read.symm.trans read
  | cons w ws ih =>
      rcases spaced.scanS with ⟨t₁, read, left⟩
      cases ws' with
      | nil =>
          rcases spaced'.scanS_fails with ⟨t₂, none_read, -⟩
          cases none_read.symm.trans read
      | cons w' ws' =>
          rcases spaced'.scanS with ⟨t₂, read', left'⟩
          obtain ⟨same, rfl⟩ := Prod.mk.inj (read.symm.trans read')
          rw [Option.some.inj same, ih left left']

/-- A text that is cut off after some of its words has them. -/
theorem CutWords.between {a b : List Char} {us : List (List Char)}
    (cut : CutWords (a :: b :: ws) us) (cut' : CutWords us [a, b]) :
    ∃ us', us = a :: b :: us' ∧ CutWords ws us' := by
  cases cut with
  | stop => cases cut'
  | part _ _ =>
      cases cut' with
      | keep none_left => cases none_left
  | keep cut =>
      cases cut' with
      | keep cut' =>
          cases cut with
          | stop => cases cut'
          | @part v _ _ _ shorter =>
              obtain rfl : v = b := by
                cases cut' with
                | part _ longer => exact List.IsPrefix.eq_of_length_le shorter longer.length_le
                | keep _ => rfl
              exact ⟨[], rfl, .stop⟩
          | keep cut => exact ⟨_, rfl, cut⟩

theorem CutWords.after {hs us : List (List Char)} (cut : CutWords (hs ++ ws) us)
    (cut' : CutWords us hs) : ∃ us', us = hs ++ us' ∧ CutWords ws us' := by
  induction hs generalizing us with
  | nil => exact ⟨us, rfl, cut⟩
  | cons h hs ih =>
      cases cut with
      | stop => cases cut'
      | @part v _ _ _ shorter =>
          cases cut' with
          | part _ longer =>
              obtain rfl := List.IsPrefix.eq_of_length_le shorter longer.length_le
              exact ⟨[], rfl, .stop⟩
          | keep none_left =>
              cases none_left
              exact ⟨[], rfl, .stop⟩
      | keep cut =>
          cases cut' with
          | part _ _ => exact ⟨_, rfl, cut⟩
          | keep cut' =>
              rcases ih cut cut' with ⟨us', rfl, rest⟩
              exact ⟨us', rfl, rest⟩

end Texts
end Scanf
