import Mathlib.Algebra.Order.BigOperators.Group.List
import Mathlib.Algebra.Order.Ring.Nat
import Mathlib.Data.List.Chain
import TaintFlow.Proofs.Text.Space
import TaintFlow.Yaml.Token

/-!
# Lines of words

A document of words is written line by line: a key behind its indentation, a colon, and a word as
its value or nothing, in which case deeper lines follow. `Token.ofText?_lines` says which tokens are
cut from such a text, as long as blocks only open and do not close before the end. The tokens are
those of the lines, one after the other, with a start wherever a line is deeper than the one before
it (`Blocks.foldl_addLine_of_deeper`).

The reader does not work line by line. White space behind a value is taken along with the value,
with the indentation of the next line, since the value might go on there; behind a colon it is left
for the next round. Both ways lead to the same place as starting at the next line
(`Lexer.tokens?_congr`), so what a line does can be said line by line (`Lexer.tokens?_line`).
-/

namespace TaintFlow.Yaml

open Text (Stops)

/-! ## Words -/

/-- Characters that mean nothing but themselves, wherever they stand. -/
def isLetter (c : Char) : Bool := c.isAlphanum || c == '_'

def isWord (text : String) : Bool := !text.toList.isEmpty && text.toList.all isLetter

/-- A plain scalar that is one word. -/
structure Word where
  text : String
  isWord_text : isWord text = true

def Word.chars (w : Word) : List Char := w.text.toList

/-- Characters that are skipped between tokens. -/
def isSkipped (c : Char) : Bool := isSpace c || c == '#' || c == byteOrderMark

theorem ne_of_isLetter {c d : Char} (hc : isLetter c = true) (hd : isLetter d = false) : c ≠ d := by
  rintro rfl
  rw [hc] at hd
  cases hd

theorem isSpace_of_isLetter {c : Char} (hc : isLetter c = true) : isSpace c = false := by
  rw [Bool.eq_false_iff]
  intro h
  simp only [isSpace, isBlank, isBreak, Bool.or_eq_true, beq_iff_eq] at h
  rcases h with (rfl | rfl) | (rfl | rfl) | rfl <;> cases hc

theorem isSkipped_of_isLetter {c : Char} (hc : isLetter c = true) : isSkipped c = false := by
  have hmark : c ≠ byteOrderMark := ne_of_isLetter hc (by decide)
  have hhash : c ≠ '#' := ne_of_isLetter hc (by decide)
  simp [isSkipped, isSpace_of_isLetter hc, hmark, hhash]

theorem isReserved_of_isLetter {c : Char} (hc : isLetter c = true) :
    Lexer.isReserved c = false := by
  have hnone : "[]#|>%@`".toList.all (fun d => !isLetter d) = true := by decide
  rw [Bool.eq_false_iff]
  intro h
  have hnot := List.all_eq_true.mp hnone c (List.contains_iff_mem.mp h)
  rw [hc] at hnot
  cases hnot

theorem atMarker_of_isLetter {c : Char} (hc : isLetter c = true) (cs : List Char) :
    atMarker (c :: cs) = false := by
  unfold atMarker
  split
  · next heq =>
    cases heq
    cases hc
  · next heq =>
    cases heq
    cases hc
  · rfl

namespace Word

variable (w : Word)

theorem chars_ne_nil : w.chars ≠ [] := by
  have h := w.isWord_text
  simp only [isWord, Bool.and_eq_true, Bool.not_eq_true', List.isEmpty_eq_false_iff] at h
  exact h.1

theorem letters : ∀ c ∈ w.chars, isLetter c = true := by
  have h := w.isWord_text
  simp only [isWord, Bool.and_eq_true, List.all_eq_true] at h
  exact h.2

theorem exists_cons (rest : List Char) :
    ∃ c cs, isLetter c = true ∧ w.chars ++ rest = c :: cs := by
  rcases List.exists_cons_of_ne_nil w.chars_ne_nil with ⟨c, cs, hcs⟩
  refine ⟨c, cs ++ rest, w.letters c (hcs ▸ List.mem_cons_self ..), ?_⟩
  rw [hcs, List.cons_append]

theorem stops_isSkipped (rest : List Char) : Stops isSkipped (w.chars ++ rest) := by
  rcases w.exists_cons rest with ⟨c, cs, hc, hcs⟩
  rw [hcs]
  exact Text.stops_cons.mpr (isSkipped_of_isLetter hc)

theorem ofList_chars : String.ofList w.chars = w.text :=
  String.ofList_toList

end Word

/-! ## Places -/

/-- The place behind a text. -/
def Mark.over (m : Mark) (cs : List Char) : Mark := cs.foldl Mark.after m

@[simp] theorem Mark.over_nil (m : Mark) : m.over [] = m := rfl

@[simp] theorem Mark.over_cons (m : Mark) (c : Char) (cs : List Char) :
    m.over (c :: cs) = (m.after c).over cs := rfl

theorem Mark.over_append (m : Mark) (cs cs' : List Char) :
    m.over (cs ++ cs') = (m.over cs).over cs' :=
  List.foldl_append

/-- A text without breaks stays on its line. -/
theorem Mark.over_eq {cs : List Char} (h : ∀ c ∈ cs, isBreak c = false) (m : Mark) :
    m.over cs = ⟨m.index + cs.length, m.line, m.column + cs.length⟩ := by
  induction cs generalizing m with
  | nil => rfl
  | cons c cs ih =>
    rw [List.forall_mem_cons] at h
    have hafter : m.after c = ⟨m.index + 1, m.line, m.column + 1⟩ := by
      rw [Mark.after, if_neg (by simp [h.1])]
    rw [Mark.over_cons, ih h.2, hafter]
    simp only [List.length_cons, Mark.mk.injEq, true_and]
    omega

theorem Mark.over_spaces (m : Mark) (n : Nat) :
    m.over (List.replicate n ' ') = ⟨m.index + n, m.line, m.column + n⟩ := by
  rw [Mark.over_eq, List.length_replicate]
  intro c hc
  rw [List.eq_of_mem_replicate hc]
  rfl

theorem Mark.over_word (m : Mark) (w : Word) :
    m.over w.chars = ⟨m.index + w.chars.length, m.line, m.column + w.chars.length⟩ := by
  apply Mark.over_eq
  intro c hc
  have hspace := isSpace_of_isLetter (w.letters c hc)
  rw [isSpace, Bool.or_eq_false_iff] at hspace
  exact hspace.2

theorem Cursor.skip_append (cs rest : List Char) (m : Mark) :
    Cursor.skip cs.length ⟨cs ++ rest, m⟩ = ⟨rest, m.over cs⟩ := by
  induction cs generalizing m with
  | nil => rfl
  | cons c cs ih => exact ih (m.after c)

/-! ## Plain scalars -/

theorem plainWord?_append {cs rest : List Char} (hcs : ∀ c ∈ cs, isLetter c = true)
    (hrest : plainWord? false rest = some []) : plainWord? false (cs ++ rest) = some cs := by
  induction cs with
  | nil => exact hrest
  | cons c cs ih =>
    rw [List.forall_mem_cons] at hcs
    have hcolon : c ≠ ':' := ne_of_isLetter hcs.1 (by decide)
    rw [List.cons_append, plainWord?, ih hcs.2]
    simp [isSpace_of_isLetter hcs.1, hcolon]

theorem Gap.read?_spaces {least k : Nat} {g : Gap} (hg : g.leavesLine = true) {rest : List Char}
    (hrest : Stops isSkipped rest) (m : Mark) :
    Gap.read? least g (List.replicate k ' ' ++ rest) m =
      some (g, ⟨rest, m.over (List.replicate k ' ')⟩) := by
  induction k generalizing m with
  | zero =>
    -- the gap ends at the first character that is not skipped, or with the text
    cases rest with
    | nil => rfl
    | cons c rest =>
      have hspace : isSpace c = false := by
        have hskipped := Text.stops_cons.mp hrest
        simp only [isSkipped, Bool.or_eq_false_iff] at hskipped
        exact hskipped.1.1
      rw [isSpace, Bool.or_eq_false_iff] at hspace
      rw [List.replicate_zero, List.nil_append, Gap.read?, if_neg (by simp [hspace.2]),
        if_neg (by simp [hspace.1])]
      rfl
  | succ k ih =>
    have hstep : Gap.read? least g (' ' :: (List.replicate k ' ' ++ rest)) m =
        Gap.read? least g (List.replicate k ' ' ++ rest) (m.after ' ') := by
      rw [Gap.read?, if_neg (by decide), if_pos (by decide), if_pos hg, if_neg (by simp)]
    rw [List.replicate_succ, List.cons_append, hstep, ih]
    rfl

section

variable (w : Word) {least : Nat} {m : Mark}

/-- A word is no marker and no comment. -/
theorem word_starts (rest : List Char) :
    ((⟨w.chars ++ rest, m⟩ : Cursor).isAtMarker || (w.chars ++ rest).head? == some '#') =
      false := by
  rcases w.exists_cons rest with ⟨c, cs, hc, hcs⟩
  have hhash : c ≠ '#' := ne_of_isLetter hc (by decide)
  simp [Cursor.isAtMarker, hcs, atMarker_of_isLetter hc, hhash]

/-- Before a colon a word ends at the colon. -/
theorem plain?_key {after : List Char} (hafter : atSpace after = true) (fuel : Nat) :
    plain? false least (fuel + 1) {} ⟨w.chars ++ ':' :: after, m⟩ =
      some (w.chars, ⟨':' :: after, m.over w.chars⟩, false) := by
  have hword : plainWord? false (w.chars ++ ':' :: after) = some w.chars := by
    apply plainWord?_append w.letters
    simp [plainWord?, hafter]
  rw [plain?, if_neg (Bool.eq_false_iff.mp (word_starts w _))]
  simp [hword, w.chars_ne_nil, Cursor.skip_append, Gap.text, isSpace, isBlank, isBreak]

/-- At the end of a line a word takes along the indentation of the next line, and ends if that is
too small. -/
theorem plain?_value {k : Nat} (hk : k < least) {rest : List Char} (hrest : Stops isSkipped rest)
    (fuel : Nat) :
    plain? false least (fuel + 1) {} ⟨w.chars ++ '\n' :: (List.replicate k ' ' ++ rest), m⟩ =
      some (w.chars, ⟨rest, ((m.over w.chars).after '\n').over (List.replicate k ' ')⟩, true) := by
  have hword : plainWord? false (w.chars ++ '\n' :: (List.replicate k ' ' ++ rest)) =
      some w.chars :=
    plainWord?_append w.letters rfl
  have hgap : Gap.read? least {} ('\n' :: (List.replicate k ' ' ++ rest)) (m.over w.chars) =
      some ({ breaks := ['\n'] },
        ⟨rest, ((m.over w.chars).after '\n').over (List.replicate k ' ')⟩) :=
    Gap.read?_spaces rfl hrest _
  have hcolumn : (((m.over w.chars).after '\n').over (List.replicate k ' ')).column = k := by
    rw [Mark.over_spaces]
    exact Nat.zero_add k
  -- the word would go on in the next line if that were indented far enough, which `hk` rules out
  rw [plain?, if_neg (Bool.eq_false_iff.mp (word_starts w _))]
  simp [hword, w.chars_ne_nil, Cursor.skip_append, Gap.text, isSpace, isBlank, isBreak, hgap,
    Cursor.column, hcolumn, hk, Gap.leavesLine]

end

/-! ## Rounds of the reader -/

namespace Lexer

/-- Where the reader goes on depends on where it is after white space. -/
theorem tokens?_congr {x y : Lexer} (h : x.skipSpace = y.skipSpace) (fuel : Nat) :
    tokens? fuel x = tokens? fuel y := by
  cases fuel with
  | zero => rfl
  | succ fuel => rw [tokens?, tokens?, h]

/-- A round: the reader is at a token, no candidate is stale, and no block ends before the token. -/
theorem tokens?_round {x y z : Lexer} (hspace : x.skipSpace = y) (hfresh : y.refreshAll? = some y)
    (hrest : y.cursor.rest ≠ []) (hopen : y.closeBlocks (y.cursor.column + 1) = y)
    (htoken : y.token? = some z) (fuel : Nat) : tokens? (fuel + 1) x = tokens? fuel z := by
  rw [tokens?, hspace, hfresh, Option.bind_eq_bind, Option.bind_some, if_neg (by simpa using hrest),
    hopen, htoken]
  rfl

theorem skipSpaceFrom_spaces {keyAllowed : Bool} {rest : List Char} (hrest : Stops isSkipped rest)
    (n : Nat) (m : Mark) :
    skipSpaceFrom false keyAllowed false (List.replicate n ' ' ++ rest) m =
      (keyAllowed, ⟨rest, m.over (List.replicate n ' ')⟩) := by
  induction n generalizing m with
  | zero =>
    cases rest with
    | nil => rfl
    | cons c rest =>
      have hskipped := Text.stops_cons.mp hrest
      simp only [isSkipped, isSpace, isBlank, Bool.or_eq_false_iff] at hskipped
      simp [skipSpaceFrom, hskipped]
  | succ n ih =>
    rw [List.replicate_succ, List.cons_append]
    exact ih (m.after ' ')

theorem closeBlocks_of_le {x : Lexer} {bound : Nat} (h : x.least ≤ bound) :
    x.closeBlocks bound = x := by
  have hclose : closeFrom bound x.least x.outer = (0, x.least, x.outer) := by
    cases houter : x.outer with
    | nil => rfl
    | cons next outer => rw [closeFrom, if_neg (Nat.not_lt.mpr h)]
  unfold closeBlocks
  rw [hclose]
  simp

theorem refreshAll?_of_fresh {x : Lexer}
    (hcandidate : x.candidate.any (·.isStale x.cursor.mark) = false)
    (hflow : x.suspended = []) : x.refreshAll? = some x := by
  have hcurrent : refresh? x.cursor.mark x.candidate = some x.candidate := by
    rw [refresh?, hcandidate]
    rfl
  have hnone : x.suspended.mapM (refresh? x.cursor.mark) = some x.suspended := by
    rw [hflow]
    rfl
  unfold refreshAll?
  rw [hcurrent, hnone]
  rfl

/-- A token that starts with a letter is a plain scalar. -/
theorem token?_of_isLetter {x : Lexer} {c : Char} {cs : List Char} (hx : x.cursor.rest = c :: cs)
    (hc : isLetter c = true) : x.token? = x.plain? := by
  have hpercent : c ≠ '%' := ne_of_isLetter hc (by decide)
  have hbar : c ≠ '|' := ne_of_isLetter hc (by decide)
  have hangle : c ≠ '>' := ne_of_isLetter hc (by decide)
  have hblank : isBlank c = false := (Bool.or_eq_false_iff.mp (isSpace_of_isLetter hc)).1
  unfold token? Cursor.isAtMarker
  rw [hx, atMarker_of_isLetter hc, if_neg (by simp [hpercent]), if_neg (by simp)]
  split
  all_goals
    rename_i heq
    cases heq
  -- what is left of the other cases is a letter that is punctuation
  all_goals try cases hc
  simp [hbar, hangle, isReserved_of_isLetter hc, hblank]

theorem plain?_eq_some {x y : Lexer} {w : Word} {c : Cursor} {left : Bool}
    (hnote : x.noteCandidate? = some y)
    (hplain : Yaml.plain? y.inFlow y.least (y.cursor.rest.length + 1) {} y.cursor =
      some (w.chars, c, left)) :
    x.plain? = some ({ y with keyAllowed := left }.emit (.scalar w.text .plain) c) := by
  unfold plain?
  rw [hnote, Option.bind_eq_bind, Option.bind_some, hplain, ← w.ofList_chars]
  rfl

end Lexer

/-! ## Blocks and lines -/

/-- The tokens that have been cut, and the columns of the blocks that are open. -/
structure Blocks where
  tokens : List Token := []
  least : Nat := 0
  outer : List Nat := []

namespace Blocks

variable (b : Blocks)

/-- The reader at a cursor, when no key has been started. -/
def lexer (keyAllowed : Bool) (c : Cursor) : Lexer :=
  { cursor := c, tokens := b.tokens, least := b.least, outer := b.outer, keyAllowed := keyAllowed }

/-- The reader behind a word that may be a key. -/
def lexerBehind (w : Word) (m : Mark) (rest : List Char) : Lexer where
  cursor := ⟨rest, m.over w.chars⟩
  tokens := b.tokens ++ [.scalar w.text .plain]
  least := b.least
  outer := b.outer
  candidate := some ⟨b.tokens.length, m, b.least == m.column + 1⟩
  keyAllowed := false

/-- A key at a column opens a block unless there is one at that column. -/
def addKey (column : Nat) (w : Word) : Blocks :=
  if b.least ≤ column then
    { tokens := b.tokens ++ [.blockStart, .key, .scalar w.text .plain, .value]
      least := column + 1
      outer := b.least :: b.outer }
  else { b with tokens := b.tokens ++ [.key, .scalar w.text .plain, .value] }

def addValue (w : Word) : Blocks := { b with tokens := b.tokens ++ [.scalar w.text .plain] }

end Blocks

namespace Lexer

variable {b : Blocks} {w : Word} {m : Mark}

theorem skipSpace_lexer {keyAllowed : Bool} {rest : List Char} (hrest : Stops isSkipped rest)
    (n : Nat) :
    (b.lexer keyAllowed ⟨List.replicate n ' ' ++ rest, m⟩).skipSpace =
      b.lexer keyAllowed ⟨rest, m.over (List.replicate n ' ')⟩ := by
  unfold skipSpace
  simp only [Blocks.lexer, inFlow, List.isEmpty_nil, Bool.not_true, skipSpaceFrom_spaces hrest]

theorem noteCandidate?_lexer (c : Cursor) : (b.lexer true c).noteCandidate? =
    some { b.lexer false c with
      candidate := some ⟨b.tokens.length, c.mark, b.least == c.column + 1⟩ } := by
  rfl

theorem noteCandidate?_lexer_false (c : Cursor) :
    (b.lexer false c).noteCandidate? = some (b.lexer false c) := by
  rfl

/-- The first round of a line takes the key. -/
theorem tokens?_key (n : Nat) (hm : m.column = 0) (hleast : b.least ≤ n + 1) {after : List Char}
    (hafter : atSpace after = true) (fuel : Nat) :
    tokens? (fuel + 1) (b.lexer true ⟨List.replicate n ' ' ++ (w.chars ++ ':' :: after), m⟩) =
      tokens? fuel (b.lexerBehind w (m.over (List.replicate n ' ')) (':' :: after)) := by
  have hcolumn : (m.over (List.replicate n ' ')).column = n := by
    rw [Mark.over_spaces, hm, Nat.zero_add]
  refine tokens?_round (skipSpace_lexer (w.stops_isSkipped _) n) (refreshAll?_of_fresh rfl rfl)
    ?_ ?_ ?_ fuel
  · exact List.append_ne_nil_of_left_ne_nil w.chars_ne_nil _
  · apply closeBlocks_of_le
    change b.least ≤ (m.over (List.replicate n ' ')).column + 1
    rwa [hcolumn]
  -- the word may be a key, so it is remembered as a candidate until the colon settles it
  · rcases w.exists_cons (':' :: after) with ⟨c, cs, hc, hcs⟩
    rw [token?_of_isLetter hcs hc]
    exact plain?_eq_some (noteCandidate?_lexer _) (plain?_key w hafter _)

theorem value?_lexerBehind (after : List Char) : (b.lexerBehind w m (':' :: after)).value? =
    some ((b.addKey m.column w).lexer false ⟨after, (m.over w.chars).after ':'⟩) := by
  by_cases hopen : b.least ≤ m.column
  · simp [value?, openBlock, inFlow, Blocks.lexerBehind, Blocks.addKey, Blocks.lexer, emit,
      Cursor.skip, hopen]
  · simp [value?, openBlock, inFlow, Blocks.lexerBehind, Blocks.addKey, Blocks.lexer, emit,
      Cursor.skip, hopen]

/-- The second round takes the colon and makes the word a key. -/
theorem tokens?_colon (hleast : b.least ≤ m.column + 1) (hshort : w.chars.length ≤ maxKeyLength)
    {after : List Char} (hafter : atSpace after = true) (fuel : Nat) :
    tokens? (fuel + 1) (b.lexerBehind w m (':' :: after)) =
      tokens? fuel ((b.addKey m.column w).lexer false ⟨after, (m.over w.chars).after ':'⟩) := by
  refine tokens?_round (y := b.lexerBehind w m (':' :: after))
    ?_ ?_ (List.cons_ne_nil _ _) ?_ ?_ fuel
  · rfl
  · apply refreshAll?_of_fresh
    · -- the colon is on the line of the key, and near enough
      change Candidate.isStale _ (m.over w.chars) = false
      rw [Mark.over_word]
      simp [Candidate.isStale, hshort]
    · rfl
  · apply closeBlocks_of_le
    change b.least ≤ (m.over w.chars).column + 1
    rw [Mark.over_word]
    exact Nat.le_trans hleast (by simp)
  · have htoken : (b.lexerBehind w m (':' :: after)).token? =
        (b.lexerBehind w m (':' :: after)).value? := by
      unfold token?
      simp [Blocks.lexerBehind, Cursor.isAtMarker, atMarker, hafter]
    rw [htoken, value?_lexerBehind]

/-- The third round takes the value, which ends with the line. -/
theorem tokens?_value {k : Nat} (hk : k < b.least) {rest : List Char} (hrest : Stops isSkipped rest)
    (hleast : b.least ≤ m.column + 2) (fuel : Nat) :
    tokens? (fuel + 1) (b.lexer false
      ⟨' ' :: (w.chars ++ '\n' :: (List.replicate k ' ' ++ rest)), m⟩) =
      tokens? fuel ((b.addValue w).lexer true
        ⟨List.replicate k ' ' ++ rest, ((m.after ' ').over w.chars).after '\n'⟩) := by
  have hspace :
      (b.lexer false ⟨' ' :: (w.chars ++ '\n' :: (List.replicate k ' ' ++ rest)), m⟩).skipSpace =
      b.lexer false ⟨w.chars ++ '\n' :: (List.replicate k ' ' ++ rest), m.after ' '⟩ :=
    skipSpace_lexer (w.stops_isSkipped _) 1
  have hvalue : tokens? (fuel + 1)
      (b.lexer false ⟨' ' :: (w.chars ++ '\n' :: (List.replicate k ' ' ++ rest)), m⟩) =
      tokens? fuel ((b.addValue w).lexer true
        ⟨rest, (((m.after ' ').over w.chars).after '\n').over (List.replicate k ' ')⟩) := by
    refine tokens?_round hspace (refreshAll?_of_fresh rfl rfl) ?_ ?_ ?_ fuel
    · exact List.append_ne_nil_of_left_ne_nil w.chars_ne_nil _
    · exact closeBlocks_of_le hleast
    · rcases w.exists_cons ('\n' :: (List.replicate k ' ' ++ rest)) with ⟨c, cs, hc, hcs⟩
      rw [token?_of_isLetter hcs hc]
      exact plain?_eq_some (noteCandidate?_lexer_false _) (plain?_value w hk hrest _)
  rw [hvalue]
  -- behind the value the reader has skipped the indentation already
  apply tokens?_congr
  rw [skipSpace_lexer hrest k]
  exact skipSpace_lexer hrest 0

end Lexer

/-- A key with its value, if it has one on its line. -/
structure Line where
  indent : Nat
  key : Word
  value : Option Word
  key_short : key.chars.length ≤ maxKeyLength

namespace Line

def valueChars : Option Word → List Char
  | none => []
  | some w => ' ' :: w.chars

def chars (l : Line) : List Char :=
  List.replicate l.indent ' ' ++ (l.key.chars ++ ':' :: (valueChars l.value ++ ['\n']))

/-- The tokens of an entry, without those of the lines below it. -/
def tokens (l : Line) : List Token :=
  .key :: .scalar l.key.text .plain :: .value ::
    (l.value.map fun w => Token.scalar w.text .plain).toList

/-- How many rounds the reader takes. -/
def rounds (l : Line) : Nat := if l.value.isSome then 3 else 2

/-- `l'` may follow `l`: it is deeper, or at the same column. A value cannot go on in deeper
lines. -/
def Precedes (l l' : Line) : Prop :=
  l.indent ≤ l'.indent ∧ (l.value.isSome = true → l'.indent = l.indent)

end Line

theorem Line.column_over_chars {m : Mark} (l : Line) : (m.over l.chars).column = 0 := by
  have hsplit : l.chars =
      (List.replicate l.indent ' ' ++ (l.key.chars ++ ':' :: valueChars l.value)) ++ ['\n'] := by
    simp [chars]
  rw [hsplit, Mark.over_append]
  rfl

namespace Blocks

def addLine (b : Blocks) (l : Line) : Blocks :=
  match l.value with
  | none => b.addKey l.indent l.key
  | some w => (b.addKey l.indent l.key).addValue w

/-- All tokens, if the text ends here. -/
def close (b : Blocks) : List Token :=
  b.tokens ++ List.replicate (Lexer.closeFrom 0 b.least b.outer).1 .blockEnd

theorem least_addKey {b : Blocks} {n : Nat} (h : b.least ≤ n + 1) (w : Word) :
    (b.addKey n w).least = n + 1 := by
  unfold addKey
  split
  · rfl
  · simp only
    omega

theorem least_addLine {b : Blocks} {l : Line} (h : b.least ≤ l.indent + 1) :
    (b.addLine l).least = l.indent + 1 := by
  unfold addLine
  split
  · exact least_addKey h l.key
  · exact least_addKey h l.key

/-- A line at the level of the innermost block is one more entry. -/
theorem addLine_of_level {b : Blocks} {l : Line} (h : b.least = l.indent + 1) :
    b.addLine l = { b with tokens := b.tokens ++ l.tokens } := by
  have hlevel : ¬ b.least ≤ l.indent := by omega
  unfold addLine
  split
  · next hvalue => simp [addKey, hlevel, Line.tokens, hvalue]
  · next hvalue => simp [addKey, addValue, hlevel, Line.tokens, hvalue]

/-- A deeper line starts a block. -/
theorem addLine_of_deeper {b : Blocks} {l : Line} (h : b.least ≤ l.indent) :
    b.addLine l =
      { tokens := b.tokens ++ .blockStart :: l.tokens, least := l.indent + 1,
        outer := b.least :: b.outer } := by
  unfold addLine
  split
  · next hvalue => simp [addKey, h, Line.tokens, hvalue]
  · next hvalue => simp [addKey, addValue, h, Line.tokens, hvalue]

theorem foldl_addLine_of_level {b : Blocks} {lines : List Line}
    (h : ∀ l ∈ lines, b.least = l.indent + 1) :
    lines.foldl addLine b = { b with tokens := b.tokens ++ lines.flatMap Line.tokens } := by
  induction lines generalizing b with
  | nil => simp
  | cons l lines ih =>
    rw [List.forall_mem_cons] at h
    rw [List.foldl_cons, addLine_of_level h.1, ih]
    · simp
    · exact h.2

/-- Lines at one column deeper than before are a block of their own. -/
theorem foldl_addLine_of_deeper {b : Blocks} {n : Nat} (hopen : b.least ≤ n) {lines : List Line}
    (hne : lines ≠ []) (hlines : ∀ l ∈ lines, l.indent = n) :
    lines.foldl addLine b =
      { tokens := b.tokens ++ .blockStart :: lines.flatMap Line.tokens
        least := n + 1
        outer := b.least :: b.outer } := by
  -- the first line opens the block, and the others stand at its column
  cases lines with
  | nil => exact absurd rfl hne
  | cons l lines =>
    rw [List.forall_mem_cons] at hlines
    rcases hlines with ⟨rfl, hlines⟩
    rw [List.foldl_cons, addLine_of_deeper hopen, foldl_addLine_of_level]
    · simp
    · intro l' hl'
      rw [hlines l' hl']

end Blocks

/-- What comes next is not deeper than column `n`. -/
def Dedents (n : Nat) (tail : List Char) : Prop :=
  ∃ k rest, k ≤ n ∧ tail = List.replicate k ' ' ++ rest ∧ Stops isSkipped rest

theorem Line.dedents (l : Line) (tail : List Char) : Dedents l.indent (l.chars ++ tail) := by
  refine ⟨l.indent, l.key.chars ++ (':' :: (valueChars l.value ++ ['\n']) ++ tail),
    Nat.le_refl _, ?_, ?_⟩
  · simp [chars]
  · exact l.key.stops_isSkipped _

namespace Lexer

variable {b : Blocks} {m : Mark}

/-- Behind a colon, a line break leads to the next line. -/
theorem skipSpace_break (tail : List Char) :
    (b.lexer false ⟨'\n' :: tail, m⟩).skipSpace =
      (b.lexer true ⟨tail, m.after '\n'⟩).skipSpace := by
  rfl

/-- What a line does. -/
theorem tokens?_line {l : Line} {tail : List Char} (hm : m.column = 0)
    (hleast : b.least ≤ l.indent + 1)
    (htail : l.value.isSome = true → Dedents l.indent tail) (fuel : Nat) :
    tokens? (fuel + l.rounds) (b.lexer true ⟨l.chars ++ tail, m⟩) =
      tokens? fuel ((b.addLine l).lexer true ⟨tail, m.over l.chars⟩) := by
  have hcolumn : (m.over (List.replicate l.indent ' ')).column = l.indent := by
    rw [Mark.over_spaces, hm, Nat.zero_add]
  have hbehind : b.least ≤ (m.over (List.replicate l.indent ' ')).column + 1 := by rwa [hcolumn]
  -- a key that stands alone takes two rounds, a value takes one more
  cases hvalue : l.value with
  | none =>
    have hchars : l.chars ++ tail =
        List.replicate l.indent ' ' ++ (l.key.chars ++ ':' :: '\n' :: tail) := by
      simp [Line.chars, Line.valueChars, hvalue]
    have hover : m.over l.chars =
        (((m.over (List.replicate l.indent ' ')).over l.key.chars).after ':').after '\n' := by
      simp [Line.chars, Line.valueChars, hvalue, Mark.over_append]
    have hrounds : l.rounds = 2 := by
      simp [Line.rounds, hvalue]
    have hline : b.addLine l = b.addKey l.indent l.key := by
      simp [Blocks.addLine, hvalue]
    rw [hchars, hover, hrounds, hline, tokens?_key l.indent hm hleast rfl,
      tokens?_colon hbehind l.key_short rfl, hcolumn]
    exact tokens?_congr (skipSpace_break tail) fuel
  | some w =>
    rcases htail (by rw [hvalue]; rfl) with ⟨k, rest, hk, rfl, hrest⟩
    -- the indentation of the next line is taken along with the value, so it is split off the tail
    -- here
    have hchars : l.chars ++ (List.replicate k ' ' ++ rest) = List.replicate l.indent ' ' ++
        (l.key.chars ++ ':' :: ' ' :: (w.chars ++ '\n' :: (List.replicate k ' ' ++ rest))) := by
      simp [Line.chars, Line.valueChars, hvalue]
    have hover : m.over l.chars =
        (((((m.over (List.replicate l.indent ' ')).over l.key.chars).after ':').after ' ').over
          w.chars).after '\n' := by
      simp [Line.chars, Line.valueChars, hvalue, Mark.over_append]
    have hrounds : l.rounds = 3 := by
      simp [Line.rounds, hvalue]
    have hline : b.addLine l = (b.addKey l.indent l.key).addValue w := by
      simp [Blocks.addLine, hvalue]
    have hopen := Blocks.least_addKey hleast l.key
    rw [hchars, hover, hrounds, hline, tokens?_key l.indent hm hleast rfl,
      tokens?_colon hbehind l.key_short rfl, hcolumn]
    apply tokens?_value
    · rw [hopen]
      exact Nat.lt_succ_of_le hk
    · exact hrest
    · rw [hopen, Mark.over_word]
      change l.indent + 1 ≤ (m.over (List.replicate l.indent ' ')).column +
        l.key.chars.length + 1 + 2
      rw [hcolumn]
      omega

theorem tokens?_end (fuel : Nat) : tokens? (fuel + 1) (b.lexer true ⟨[], m⟩) = some b.close := by
  rfl

/-- What lines do, one after the other. -/
theorem tokens?_lines {lines : List Line} (hm : m.column = 0)
    (hfirst : ∀ l ∈ lines.head?, b.least ≤ l.indent + 1)
    (hchain : lines.IsChain Line.Precedes) {fuel : Nat}
    (hfuel : (lines.map Line.rounds).sum < fuel) :
    tokens? fuel (b.lexer true ⟨lines.flatMap Line.chars, m⟩) =
      some (lines.foldl Blocks.addLine b).close := by
  -- over the lines: each leaves the reader at column 0, with the blocks that it has opened
  induction lines generalizing b m fuel with
  | nil =>
    rcases Nat.exists_eq_add_of_lt hfuel with ⟨k, rfl⟩
    rw [List.map_nil, List.sum_nil, Nat.zero_add]
    exact tokens?_end k
  | cons l lines ih =>
    have hleast : b.least ≤ l.indent + 1 := hfirst l rfl
    rw [List.isChain_cons] at hchain
    rw [List.map_cons, List.sum_cons] at hfuel
    have hsplit : fuel = fuel - l.rounds + l.rounds := by omega
    -- a value ends with its line only if no deeper line follows, and none may
    have htail : l.value.isSome = true → Dedents l.indent (lines.flatMap Line.chars) := by
      intro hvalue
      cases lines with
      | nil => exact ⟨0, [], Nat.zero_le _, rfl, Text.stops_nil⟩
      | cons l' lines =>
        rw [← (hchain.1 l' rfl).2 hvalue]
        exact l'.dedents _
    have hnext : ∀ l' ∈ lines.head?, (b.addLine l).least ≤ l'.indent + 1 := by
      intro l' hl'
      rw [Blocks.least_addLine hleast]
      exact Nat.succ_le_succ (hchain.1 l' hl').1
    rw [hsplit, List.flatMap_cons, tokens?_line hm hleast htail, List.foldl_cons]
    exact ih l.column_over_chars hnext hchain.2 (by omega)

end Lexer

/-! ## Texts -/

theorem unify_eq_self {cs : List Char} (h : ∀ c ∈ cs, c ≠ '\r' ∧ c ≠ '\x85') : unify cs = cs := by
  fun_induction unify cs with
  | case1 => rfl
  | case2 cs ih => exact absurd rfl (h '\r' (List.mem_cons_self ..)).1
  | case3 c cs _ ih =>
    rw [List.forall_mem_cons] at h
    rw [if_neg (not_or.mpr h.1), ih h.2]

/-- The character is allowed in a text and is no line break other than the line feed. -/
def isOrdinary (c : Char) : Bool := isAllowed c && c != '\r' && c != '\x85'

theorem range_of_isLetter {c : Char} (hc : isLetter c = true) :
    ('A'.val ≤ c.val ∧ c.val ≤ 'Z'.val) ∨ ('a'.val ≤ c.val ∧ c.val ≤ 'z'.val) ∨
      ('0'.val ≤ c.val ∧ c.val ≤ '9'.val) ∨ c = '_' := by
  rcases Bool.or_eq_true_iff.mp hc with halphanum | hunderscore
  · rcases Bool.or_eq_true_iff.mp halphanum with halpha | hdigit
    · rcases Bool.or_eq_true_iff.mp halpha with hupper | hlower
      · exact Or.inl (of_decide_eq_true hupper)
      · have hlower := Bool.and_eq_true_iff.mp hlower
        exact Or.inr (Or.inl (hlower.imp of_decide_eq_true of_decide_eq_true))
    · have hdigit := Bool.and_eq_true_iff.mp hdigit
      exact Or.inr (Or.inr (Or.inl (hdigit.imp of_decide_eq_true of_decide_eq_true)))
  · exact Or.inr (Or.inr (Or.inr (beq_iff_eq.mp hunderscore)))

theorem isOrdinary_of_isLetter {c : Char} (hc : isLetter c = true) : isOrdinary c = true := by
  have hreturn : c ≠ '\r' := ne_of_isLetter hc (by decide)
  have hnext : c ≠ '\x85' := ne_of_isLetter hc (by decide)
  have hrange : 0x20 ≤ c.val ∧ c.val ≤ 0x7E := by
    rcases range_of_isLetter hc with hc | hc | hc | rfl
    · exact ⟨UInt32.le_trans (by decide) hc.1, UInt32.le_trans hc.2 (by decide)⟩
    · exact ⟨UInt32.le_trans (by decide) hc.1, UInt32.le_trans hc.2 (by decide)⟩
    · exact ⟨UInt32.le_trans (by decide) hc.1, UInt32.le_trans hc.2 (by decide)⟩
    · decide
  have hlow : 0x20 ≤ c.toNat := hrange.1
  have hhigh : c.toNat ≤ 0x7E := hrange.2
  simp [isOrdinary, isAllowed, hlow, hhigh, hreturn, hnext]

theorem Line.isOrdinary_of_mem {l : Line} {c : Char} (hc : c ∈ l.chars) : isOrdinary c = true := by
  have hword : ∀ {w : Word}, c ∈ w.chars → isOrdinary c = true := by
    intro w hw
    exact isOrdinary_of_isLetter (w.letters c hw)
  unfold chars at hc
  simp only [List.mem_append, List.mem_cons, List.mem_replicate] at hc
  rcases hc with ⟨-, rfl⟩ | hkey | rfl | hvalue | rfl | hnone
  · rfl
  · exact hword hkey
  · rfl
  · unfold valueChars at hvalue
    split at hvalue
    · cases hvalue
    · rcases List.mem_cons.mp hvalue with rfl | hvalue
      · rfl
      · exact hword hvalue
  · rfl
  · cases hnone

theorem Line.rounds_le (l : Line) : l.rounds ≤ l.chars.length := by
  unfold rounds chars
  cases l.value with
  | none =>
    simp [valueChars]
    omega
  | some w =>
    simp [valueChars]
    omega

/-- The tokens of a text of lines. -/
theorem Token.ofText?_lines {text : String} {lines : List Line}
    (htext : text.toList = lines.flatMap Line.chars) (hchain : lines.IsChain Line.Precedes) :
    Token.ofText? text = some (lines.foldl Blocks.addLine {}).close := by
  have hordinary : ∀ c ∈ text.toList, isAllowed c = true ∧ c ≠ '\r' ∧ c ≠ '\x85' := by
    intro c hc
    rw [htext] at hc
    rcases List.mem_flatMap.mp hc with ⟨l, -, hc⟩
    simpa [isOrdinary, and_assoc] using Line.isOrdinary_of_mem hc
  have hallowed : text.toList.all isAllowed = true :=
    List.all_eq_true.mpr fun c hc => (hordinary c hc).1
  -- every round takes at least one character, so the length of the text is fuel enough
  have hfuel : (lines.map Line.rounds).sum < text.toList.length + 1 := by
    rw [htext, List.length_flatMap]
    exact Nat.lt_succ_of_le (List.sum_le_sum fun l _ => l.rounds_le)
  unfold Token.ofText?
  rw [if_pos hallowed, unify_eq_self fun c hc => (hordinary c hc).2, htext]
  rw [htext] at hfuel
  exact Lexer.tokens?_lines (b := {}) rfl (fun _ _ => Nat.zero_le _) hchain hfuel

end TaintFlow.Yaml
