import OsSim.Scanf

/-! read_config of os.c on the text of a configuration, in the build that os-cfg.h asks for: the
sizes of the memory are fixed, and each process has a priority. It looks at no result of fscanf.
What a scan does not store is 0 in the globals, and in the arrays what malloc has found there. -/
namespace OsSim
open Scanf

/-- A word or a path that overruns its 100 bytes. -/
inductive ConfigFault where
  | procOverrun
  | pathOverrun
  deriving DecidableEq

/-- What a round of the loop has for its process; `proc` is the buffer of the round. -/
structure LdEntry where
  startTime : BitVec 64
  proc : List Char
  prio : BitVec 64
  deriving DecidableEq

/-- The entries of a process in `ld_processes`. -/
structure LdArgs where
  path : List Char
  startTime : BitVec 64
  prio : BitVec 64
  deriving DecidableEq

/-- The globals that read_config sets. -/
structure ConfigFile where
  timeSlot : BitVec 32
  numCpus : BitVec 32
  numProcesses : BitVec 32
  ldProcesses : List LdArgs
  deriving DecidableEq

def inputProc : List Char := ['i', 'n', 'p', 'u', 't', '/', 'p', 'r', 'o', 'c', '/']

/-- `fscanf(file, "%lu %s %lu\n", ...)` over what the round finds in memory. -/
def scanEntry (u : LdEntry) (t : List Char) : Except ConfigFault (LdEntry × List Char) :=
  match scanLu t with
  | (none, t) => .ok (u, t)
  | (some startTime, t) =>
      match scanS (skip t) with
      | (none, t) => .ok ({ u with startTime }, t)
      | (some proc, t) =>
          if 100 ≤ proc.length then .error .procOverrun
          else
            match scanLu (skip t) with
            | (none, t) => .ok ({ u with startTime, proc }, t)
            | (some prio, t) => .ok (⟨startTime, proc, prio⟩, skip t)

/-- The path is put together behind "input/proc/". -/
def LdEntry.args (e : LdEntry) : Except ConfigFault LdArgs :=
  if 100 ≤ (inputProc ++ e.proc).length then .error .pathOverrun
  else .ok ⟨inputProc ++ e.proc, e.startTime, e.prio⟩

/-- The loop of read_config from process `i` on, for the rounds left. -/
def readEntries (uninit : Nat → LdEntry) (i : Nat) :
    (left : Nat) → (t : List Char) → Except ConfigFault (List LdArgs)
  | 0, _ => .ok []
  | left + 1, t => do
      let (e, t) ← scanEntry (uninit i) t
      let args ← e.args
      let rest ← readEntries uninit (i + 1) left t
      return args :: rest

/-- "%d %d %d\n" for three numbers: those before the first one that fails are stored. -/
def scanDs : Nat → List Char → List (BitVec 32) × List Char
  | 0, t => ([], t)
  | n + 1, t =>
      match scanD t with
      | (none, t) => ([], t)
      | (some v, t) => (v :: (scanDs n (skip t)).1, (scanDs n (skip t)).2)

def readConfig (uninit : Nat → LdEntry) (t : List Char) : Except ConfigFault ConfigFile := do
  let (header, t) := scanDs 3 t
  let numProcesses := header[2]?.getD 0
  let ldProcesses ← readEntries uninit 0 numProcesses.toInt.toNat t
  return ⟨header[0]?.getD 0, header[1]?.getD 0, numProcesses, ldProcesses⟩

namespace LdEntry

/-- A line of a configuration. -/
def words (e : LdEntry) : List (List Char) :=
  [decimal e.startTime.toNat, e.proc, decimal e.prio.toNat]

/-- The name is a word, and the path fits its buffer. -/
def Named (e : LdEntry) : Prop := IsWord e.proc ∧ e.proc.length < 89

instance : DecidablePred Named := fun _ => inferInstanceAs (Decidable (_ ∧ _))

/-- What becomes of it in the arrays. -/
def ldArgs (e : LdEntry) : LdArgs := ⟨inputProc ++ e.proc, e.startTime, e.prio⟩

variable {e u : LdEntry} {ws : List (List Char)} {t : List Char}

theorem args_short (short : e.proc.length < 89) : e.args = .ok e.ldArgs := by
  have fits : (inputProc ++ e.proc).length < 100 := by
    rw [List.length_append]
    change 11 + e.proc.length < 100
    omega
  exact if_neg (Nat.not_le.mpr fits)

/-- A line is read as it is written. -/
theorem scanEntry_spaced (named : e.Named) (spaced : Spaced (e.words ++ ws) t) (u : LdEntry) :
    ∃ t', scanEntry u t = .ok (e, t') ∧ Spaced ws t' := by
  rcases spaced.scanLu with ⟨t₁, start, left₁⟩
  rcases left₁.skip.scanS with ⟨t₂, name, left₂⟩
  rcases left₂.skip.scanLu with ⟨t₃, prio, left₃⟩
  refine ⟨skip t₃, ?_, left₃.skip⟩
  rw [scanEntry, start]
  dsimp only
  rw [name]
  dsimp only
  rw [if_neg (Nat.not_le.mpr (Nat.lt_trans named.2 (by decide))), prio]

/-- At a word that is no number the round reads nothing. -/
theorem scanEntry_stuck (spaced : Spaced ws t) (other : ∀ w ∈ ws.head?, NoNumber w)
    (u : LdEntry) : ∃ t', scanEntry u t = .ok (u, t') ∧ Spaced ws t' := by
  rcases spaced.scanLu_fails other with ⟨t', none_read, left⟩
  exact ⟨t', by rw [scanEntry, none_read], left⟩

/-- A line without its priority, at the end of the text. -/
theorem scanEntry_unprioritized {startTime : BitVec 64} {proc : List Char}
    (short : proc.length < 89) (spaced : Spaced [decimal startTime.toNat, proc] t) (u : LdEntry) :
    ∃ t', scanEntry u t = .ok (⟨startTime, proc, u.prio⟩, t') ∧ Spaced [] t' := by
  rcases spaced.scanLu with ⟨t₁, start, left₁⟩
  rcases left₁.skip.scanS with ⟨t₂, name, left₂⟩
  rcases left₂.skip.scanLu_fails (by simp) with ⟨t₃, none_read, left₃⟩
  refine ⟨t₃, ?_, left₃⟩
  rw [scanEntry, start]
  dsimp only
  rw [name]
  dsimp only
  rw [if_neg (Nat.not_le.mpr (Nat.lt_trans short (by decide))), none_read]

end LdEntry

section Cut
variable {entries : List LdEntry} {ws ws' : List (List Char)}

end Cut

section Loop
variable {uninit : Nat → LdEntry} {i left : Nat} {ws : List (List Char)} {t : List Char}
  {entries : List LdEntry}
open LdEntry

theorem mapM_args (short : ∀ e ∈ entries, e.proc.length < 89) :
    entries.mapM LdEntry.args = .ok (entries.map LdEntry.ldArgs) := by
  induction entries with
  | nil => rfl
  | cons e entries ih =>
      rw [List.mapM_cons, args_short (short e List.mem_cons_self),
        ih fun e' member => short e' (List.mem_cons_of_mem _ member)]
      rfl

/-- The rounds from word to word: what each one has is put into the arrays. -/
theorem readEntries_succ {e : LdEntry} {t' : List Char}
    (read : scanEntry (uninit i) t = .ok (e, t')) :
    readEntries uninit i (left + 1) t = (do
      let args ← e.args
      let rest ← readEntries uninit (i + 1) left t'
      return args :: rest) := by
  rw [readEntries, read]
  rfl

theorem readEntries_stuck (spaced : Spaced ws t) (other : ∀ w ∈ ws.head?, NoNumber w) :
    readEntries uninit i left t = ((List.range' i left).map uninit).mapM LdEntry.args := by
  induction left generalizing i t with
  | zero => rfl
  | succ left ih =>
      rcases scanEntry_stuck spaced other (uninit i) with ⟨t', read, spaced'⟩
      rw [readEntries_succ read, List.range'_succ, List.map_cons, List.mapM_cons, ih spaced']

/-- The rounds on complete lines, by induction on them. -/
theorem readEntries_spaced (named : ∀ e ∈ entries, e.Named)
    (spaced : Spaced (entries.flatMap LdEntry.words ++ ws) t) :
    ∃ t', Spaced ws t' ∧ readEntries uninit i (entries.length + left) t = (do
      let args ← entries.mapM LdEntry.args
      let rest ← readEntries uninit (i + entries.length) left t'
      return args ++ rest) := by
  induction entries generalizing i t with
  | nil =>
      refine ⟨t, spaced, ?_⟩
      rw [List.length_nil, Nat.zero_add, Nat.add_zero]
      cases readEntries uninit i left t with
      | error f => rfl
      | ok rest => rfl
  | cons e entries ih =>
      rw [List.flatMap_cons, List.append_assoc] at spaced
      have own := named e List.mem_cons_self
      rcases scanEntry_spaced own spaced (uninit i) with ⟨t₁, read, spaced₁⟩
      rcases @ih (i + 1) t₁ (fun e' member => named e' (List.mem_cons_of_mem _ member)) spaced₁ with
        ⟨t₂, spaced₂, later⟩
      refine ⟨t₂, spaced₂, ?_⟩
      rw [List.length_cons, Nat.add_right_comm, readEntries_succ read, later, args_short own.2,
        List.mapM_cons, args_short own.2, Nat.add_assoc i, Nat.add_comm 1]
      cases entries.mapM LdEntry.args with
      | error f => rfl
      | ok args =>
          cases readEntries uninit (i + (entries.length + 1)) left t₂ with
          | error f => rfl
          | ok rest => rfl

end Loop

/-- The words of a header and of lines below it. -/
def configWords (timeSlot numCpus : BitVec 32) (numProcesses : Nat) (entries : List LdEntry) :
    List (List Char) :=
  decimal timeSlot.toNat :: decimal numCpus.toNat :: decimal numProcesses ::
    entries.flatMap LdEntry.words

/-- The sizes of the memory as a configuration gives them where they are not fixed. -/
structure MemSizes where
  memramsz : BitVec 64
  memswpsz : Vector (BitVec 64) 4
  vmemsz : BitVec 64

/-- The line of the sizes. -/
def MemSizes.words (sizes : MemSizes) : List (List Char) :=
  (sizes.memramsz :: sizes.memswpsz.toList ++ [sizes.vmemsz]).map fun size => decimal size.toNat

/-- The two lines that read_config takes the sizes for. -/
def MemSizes.entries (sizes : MemSizes) : List LdEntry :=
  [⟨sizes.memramsz, decimal sizes.memswpsz[0].toNat, sizes.memswpsz[1]⟩,
    ⟨sizes.memswpsz[2], decimal sizes.memswpsz[3].toNat, sizes.vmemsz⟩]

theorem MemSizes.named (sizes : MemSizes) : ∀ e ∈ sizes.entries, e.Named := by
  have short : ∀ size : BitVec 64, (decimal size.toNat).length < 89 := by
    intro size
    have digits : (decimal size.toNat).length ≤ 20 :=
      (Nat.length_toDigits_le_iff (by decide) (by decide)).mpr (Nat.lt_trans size.isLt (by decide))
    exact Nat.lt_of_le_of_lt digits (by decide)
  intro e member
  rcases List.mem_pair.mp member with rfl | rfl
  · exact ⟨decimal_isWord _, short _⟩
  · exact ⟨decimal_isWord _, short _⟩

theorem MemSizes.words_eq (sizes : MemSizes) :
    sizes.words = sizes.entries.flatMap LdEntry.words := by
  rcases sizes with ⟨ram, ⟨⟨swp⟩, four⟩, vmem⟩
  match swp, four with
  | [_, _, _, _], _ => rfl

section File
variable {uninit : Nat → LdEntry} {timeSlot numCpus : BitVec 32} {n : Nat}
  {entries : List LdEntry} {ws : List (List Char)} {t : List Char}

theorem readConfig_header (uninit : Nat → LdEntry) (few : n < 2 ^ 31)
    (spaced : Spaced (decimal timeSlot.toNat :: decimal numCpus.toNat :: decimal n :: ws) t) :
    ∃ t', Spaced ws t' ∧ readConfig uninit t =
      (readEntries uninit 0 n t').map (⟨timeSlot, numCpus, BitVec.ofNat 32 n, ·⟩) := by
  have value : (BitVec.ofNat 32 n).toNat = n := by
    rw [BitVec.toNat_ofNat]
    omega
  have count : (BitVec.ofNat 32 n).toInt.toNat = n := by
    rw [BitVec.toInt_eq_toNat_of_lt (by omega), Int.toNat_natCast, value]
  rw [← value] at spaced
  rcases spaced.scanD with ⟨t₁, first, left₁⟩
  rcases left₁.skip.scanD with ⟨t₂, second, left₂⟩
  rcases left₂.skip.scanD with ⟨t₃, third, left₃⟩
  have header : scanDs 3 t = ([timeSlot, numCpus, BitVec.ofNat 32 n], skip t₃) := by
    rw [scanDs, first]
    dsimp only
    rw [scanDs, second]
    dsimp only
    rw [scanDs, third]
    rfl
  refine ⟨skip t₃, left₃.skip, ?_⟩
  rw [readConfig, header]
  change (do
    let ldProcesses ← readEntries uninit 0 (BitVec.ofNat 32 n).toInt.toNat (skip t₃)
    return ConfigFile.mk timeSlot numCpus (BitVec.ofNat 32 n) ldProcesses) = _
  rw [count]
  rfl

/-- What read_config makes of a text whose lines are complete as far as they go. Whatever comes
after the last process is not looked at; where there are fewer lines than the header says, and no
number comes next, nothing more is read. -/
theorem readConfig_lines (uninit : Nat → LdEntry) (few : n < 2 ^ 31) (inside : entries.length ≤ n)
    (named : ∀ e ∈ entries, e.Named)
    (spaced : Spaced (configWords timeSlot numCpus n entries ++ ws) t)
    (stops : entries.length < n → ∀ w ∈ ws.head?, NoNumber w) :
    readConfig uninit t =
      ((entries ++ (List.range' entries.length (n - entries.length)).map uninit).mapM
        LdEntry.args).map (⟨timeSlot, numCpus, BitVec.ofNat 32 n, ·⟩) := by
  obtain ⟨left, rfl⟩ := Nat.exists_eq_add_of_le inside
  rcases readConfig_header uninit few spaced with ⟨t₁, spaced₁, read⟩
  rcases @readEntries_spaced uninit 0 left ws t₁ entries named spaced₁ with ⟨t₂, spaced₂, lines⟩
  rw [read, lines, List.mapM_append, Nat.zero_add, Nat.add_sub_cancel_left]
  have rest : readEntries uninit entries.length left t₂ =
      ((List.range' entries.length left).map uninit).mapM LdEntry.args := by
    by_cases none_left : left = 0
    · subst none_left
      rfl
    · exact readEntries_stuck spaced₂ (stops (by omega))
  rw [rest]

/-- A configuration that is written line by line is read as it is written, with any white space
between its words and anything after them. -/
theorem readConfig_written (uninit : Nat → LdEntry) (few : entries.length < 2 ^ 31)
    (named : ∀ e ∈ entries, e.Named)
    (spaced : Spaced (configWords timeSlot numCpus entries.length entries ++ ws) t) :
    readConfig uninit t = .ok ⟨timeSlot, numCpus, BitVec.ofNat 32 entries.length,
      entries.map LdEntry.ldArgs⟩ := by
  rw [readConfig_lines uninit few (Nat.le_refl _) named spaced fun less =>
      absurd less (Nat.lt_irrefl _),
    Nat.sub_self, List.range'_zero, List.map_nil, List.append_nil,
    mapM_args fun e member => (named e member).2]
  rfl

/-- A configuration with a line of memory sizes, as most of those in input are: the sizes become
the first two processes, each with a size for its name, and of the lines the last two are not
read, unless the header counts them in. -/
theorem memory_line_misread (uninit : Nat → LdEntry) (few : n < 2 ^ 31)
    (inside : n ≤ entries.length + 2) (named : ∀ e ∈ entries, e.Named) (sizes : MemSizes)
    (spaced : Spaced (configWords timeSlot numCpus n [] ++
      (sizes.words ++ entries.flatMap LdEntry.words)) t) :
    readConfig uninit t = .ok ⟨timeSlot, numCpus, BitVec.ofNat 32 n,
      ((sizes.entries ++ entries).take n).map LdEntry.ldArgs⟩ := by
  obtain ⟨lines, rest, whole, rfl⟩ : ∃ lines rest,
      sizes.entries ++ entries = lines ++ rest ∧ lines.length = n := by
    refine ⟨_, _, (List.take_append_drop n _).symm, ?_⟩
    rw [List.length_take, List.length_append]
    exact Nat.min_eq_left (Nat.add_comm 2 _ ▸ inside)
  have each : ∀ e ∈ lines, e.Named := by
    intro e member
    rcases List.mem_append.mp (whole ▸ List.mem_append_left rest member) with size | line
    · exact sizes.named e size
    · exact named e line
  rw [sizes.words_eq, ← List.flatMap_append, whole, List.flatMap_append] at spaced
  rw [whole, List.take_left]
  exact readConfig_written uninit few each spaced

/-- Memory that malloc may find. -/
def LdEntry.found : LdEntry := ⟨7, ['x'], 9⟩

/-- A size of the memory is started as a program, where two processes were to be. -/
theorem memory_line_misread_two : ∃ t file,
    Spaced (configWords 6 2 4 [] ++ (⟨1048576, #v[16777216, 0, 0, 0], 3145728⟩ : MemSizes).words ++
      [⟨0, ['p', '0', 's'], 0⟩, ⟨2, ['p', '1', 's'], 15⟩].flatMap LdEntry.words) t ∧
    readConfig (fun _ => .found) t = .ok file ∧ (file.ldProcesses.head?.map LdArgs.path) =
      some (inputProc ++ ['1', '6', '7', '7', '7', '2', '1', '6']) := by
  let sizes : MemSizes := ⟨1048576, #v[16777216, 0, 0, 0], 3145728⟩
  let lines : List LdEntry := [⟨0, ['p', '0', 's'], 0⟩, ⟨2, ['p', '1', 's'], 15⟩]
  have words : ∀ w ∈ configWords 6 2 4 [] ++ (sizes.words ++ lines.flatMap LdEntry.words),
      IsWord w := by
    decide +kernel
  have spaced := spaced_text words
  exact ⟨_, _, spaced, memory_line_misread _ (by decide) (by decide) (by decide) sizes spaced,
    by decide +kernel⟩

/-- A line of the format without priorities. -/
def legacyWords (line : BitVec 64 × List Char) : List (List Char) :=
  [decimal line.1.toNat, line.2]

/-- A configuration without priorities, as input has some: the first process is given the start
time of the second one for its priority, and all the others are left to chance. -/
theorem legacy_misread (uninit : Nat → LdEntry) {first : BitVec 64 × List Char}
    {lines : List (BitVec 64 × List Char)} (few : (first :: lines).length < 2 ^ 31)
    (named : ∀ line ∈ first :: lines, IsWord line.2 ∧ line.2.length < 89 ∧ NoNumber line.2)
    (spaced : Spaced (configWords timeSlot numCpus (first :: lines).length [] ++
      (first :: lines).flatMap legacyWords) t) :
    readConfig uninit t =
      ((⟨first.1, first.2, (lines.head?.map Prod.fst).getD (uninit 0).prio⟩ ::
        (List.range' 1 lines.length).map uninit).mapM LdEntry.args).map
          (⟨timeSlot, numCpus, BitVec.ofNat 32 (first :: lines).length, ·⟩) := by
  rcases readConfig_header uninit few spaced with ⟨t₁, spaced₁, read⟩
  obtain ⟨word, short, -⟩ := named first List.mem_cons_self
  rw [read, List.length_cons]
  cases lines with
  | nil =>
      rcases LdEntry.scanEntry_unprioritized short spaced₁ (uninit 0) with ⟨t₂, entry, -⟩
      rw [readEntries_succ entry]
      rfl
  | cons second lines =>
      rcases @LdEntry.scanEntry_spaced ⟨first.1, first.2, second.1⟩
        (second.2 :: lines.flatMap legacyWords) t₁ ⟨word, short⟩ spaced₁ (uninit 0) with
        ⟨t₂, entry, spaced₂⟩
      have stops : ∀ w ∈ (second.2 :: lines.flatMap legacyWords).head?, NoNumber w := by
        intro w member
        obtain rfl := Option.some.inj member
        exact (named second (by simp)).2.2
      rw [readEntries_succ entry, readEntries_stuck spaced₂ stops, ← List.mapM_cons]
      rfl

/-- Two lines: the first process has priority 4, and the second one is not that of its line. -/
theorem legacy_misread_two : readConfig (fun _ => .found)
    (text (configWords 2 1 2 [] ++ [(0, ['s', '0']), (4, ['s', '1'])].flatMap legacyWords)) =
      .ok ⟨2, 1, 2, [⟨inputProc ++ ['s', '0'], 0, 4⟩, ⟨inputProc ++ ['x'], 7, 9⟩]⟩ := by
  have words : ∀ w ∈ configWords 2 1 2 [] ++
      [(0, ['s', '0']), (4, ['s', '1'])].flatMap legacyWords, IsWord w := by
    decide +kernel
  have named : ∀ line ∈ [((0 : BitVec 64), ['s', '0']), (4, ['s', '1'])],
      IsWord line.2 ∧ line.2.length < 89 ∧ NoNumber line.2 := by
    intro line member
    rcases List.mem_pair.mp member with rfl | rfl
    · exact ⟨by decide, by decide, 's', _, rfl, by decide, by decide, by decide⟩
    · exact ⟨by decide, by decide, 's', _, rfl, by decide, by decide, by decide⟩
  exact (legacy_misread (fun _ => .found) (by decide) named (spaced_text words)).trans rfl

end File
end OsSim
