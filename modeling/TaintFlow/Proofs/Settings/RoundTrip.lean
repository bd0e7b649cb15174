import TaintFlow.Proofs.Yaml.BlockMapping
import TaintFlow.Proofs.Yaml.Lines
import TaintFlow.Settings.Document

/-!
# Settings are read back from their text

Settings are written as the balanced preset with every option overridden. `ofText_toText` says that
reading undoes writing, for any counts of 64 bits: the text of valid settings is read as these
settings, and the text of settings that are out of range is refused for the reason for which the
settings are.

The proof follows the text through the reader: its lines (`toList_toText`), its tokens
(`close_lines`), its nodes (`ofText?_toText`) and its fields (`ofYaml?_entries`). What is written
about the options stands in one table, `options`.
-/

namespace TaintFlow

theorem Preset.ofName_name (p : Preset) : Preset.ofName p.name = .ok p := by
  have hlower : p.name.map Char.toLower = p.name := by
    rw [← String.toList_inj, String.toList_map]
    cases p <;> decide
  unfold Preset.ofName
  rw [hlower]
  cases p <;> rfl

namespace Settings

open Yaml (Blocks Line Node Token isLetter isWord)
open Yaml.Node.Reader (Entry reads_ofFields)

/-! ## Options -/

/-- The keys of the options, with the words for their values. -/
def options (s : Settings) : List (String × String) :=
  [("path_tracking", s.pathTracking.name),
   ("inspect_sinks", flagText s.inspectSinks),
   ("stop_after_first_flow", flagText s.stopAfterFirstFlow),
   ("access_path_length", s.accessPathLength.repr),
   ("parallel", flagText s.parallel),
   ("batch_size", s.batchSize.repr),
   ("max_propagations", s.maxPropagations.repr)]

theorem isWord_name (t : PathTracking) : isWord t.name = true := by
  cases t <;> decide

theorem isWord_flagText (b : Bool) : isWord (flagText b) = true := by
  cases b <;> decide

theorem isWord_repr (n : Nat) : isWord n.repr = true := by
  have hletter : ∀ c ∈ n.repr.toList, isLetter c = true := by
    intro c hc
    simp [isLetter, Char.isAlphanum, Yaml.isDigit_of_mem_repr hc]
  have hne : n.repr.toList ≠ [] := by simp
  simp only [isWord, Bool.and_eq_true, Bool.not_eq_true', List.isEmpty_eq_false_iff,
    List.all_eq_true]
  exact ⟨hne, hletter⟩

/-- A key and a value that can stand on a line. -/
def IsWritable (o : String × String) : Prop :=
  isWord o.1 = true ∧ o.1.toList.length ≤ Yaml.maxKeyLength ∧ isWord o.2 = true

theorem isWritable_of_mem (s : Settings) : ∀ o ∈ s.options, IsWritable o := by
  simp only [options, List.forall_mem_cons, IsWritable, isWord_name, isWord_flagText, isWord_repr]
  decide

/-! ## Lines -/

def optionText (o : String × String) : String := "  " ++ o.1 ++ ": " ++ o.2 ++ "\n"

def optionLine (o : String × String) (h : IsWritable o) : Line where
  indent := 2
  key := ⟨o.1, h.1⟩
  value := some ⟨o.2, h.2.2⟩
  key_short := h.2.1

def optionLines (s : Settings) : List Line := s.options.pmap optionLine s.isWritable_of_mem

def headerText : String := "version: 1\npreset: balanced\noverrides:\n"

def headerLines : List Line :=
  [⟨0, ⟨"version", by decide⟩, some ⟨"1", by decide⟩, by decide⟩,
   ⟨0, ⟨"preset", by decide⟩, some ⟨"balanced", by decide⟩, by decide⟩,
   ⟨0, ⟨"overrides", by decide⟩, none, by decide⟩]

def lines (s : Settings) : List Line := headerLines ++ s.optionLines

theorem toText_eq (s : Settings) :
    s.toText = headerText ++ String.join (s.options.map optionText) := by
  unfold toText headerText
  simp only [options, List.map_cons, List.map_nil, optionText, String.join_cons, String.join_nil,
    Preset.name, ← String.append_assoc, String.append_empty, String.reduceAppend]

/-- What the lines give, one after the other, is what the options give. -/
theorem flatMap_optionLines {β : Type} (s : Settings) {f : Line → List β}
    {g : String × String → List β}
    (h : ∀ o ho, f (optionLine o ho) = g o) : s.optionLines.flatMap f = s.options.flatMap g := by
  rw [List.flatMap_def, List.flatMap_def, optionLines, List.map_pmap]
  simp only [h, List.pmap_eq_map]

theorem chars_optionLine (o : String × String) (h : IsWritable o) :
    (optionLine o h).chars = (optionText o).toList := by
  simp only [optionText, String.toList_append, List.append_assoc]
  rfl

theorem toList_toText (s : Settings) : s.toText.toList = s.lines.flatMap Line.chars := by
  have hheader : headerText.toList = headerLines.flatMap Line.chars := by
    rfl
  have hoptions : (String.join (s.options.map optionText)).toList =
      s.optionLines.flatMap Line.chars := by
    rw [String.toList_join, List.flatMap_map, s.flatMap_optionLines chars_optionLine]
  rw [toText_eq, String.toList_append, hheader, hoptions, lines, List.flatMap_append]

theorem isChain_lines (s : Settings) : s.lines.IsChain Line.Precedes := by
  simp [lines, headerLines, optionLines, options, optionLine, Line.Precedes]

/-! ## Nodes -/

def optionEntries (s : Settings) : List Entry := s.options.map fun o => .ofWord o.1 o.2

def entries (s : Settings) : List Entry :=
  [.ofWord "version" "1", .ofWord "preset" "balanced",
    ⟨"overrides", _, _, reads_ofFields s.optionEntries⟩]

theorem tokens_optionLines (s : Settings) :
    s.optionLines.flatMap Line.tokens = s.optionEntries.flatMap Entry.tokens := by
  rw [optionEntries, List.flatMap_map]
  exact s.flatMap_optionLines fun o ho => rfl

theorem indent_of_mem_optionLines (s : Settings) : ∀ l ∈ s.optionLines, l.indent = 2 := by
  intro l hl
  rcases List.mem_pmap.mp hl with ⟨o, ho, rfl⟩
  rfl

/-- The options are a block within the block of the document, and both end with the text. -/
theorem close_lines (s : Settings) : (s.lines.foldl Blocks.addLine {}).close =
    .blockStart :: (s.entries.flatMap Entry.tokens ++ [.blockEnd]) := by
  have hheader : headerLines.foldl Blocks.addLine {} =
      { tokens := .blockStart :: headerLines.flatMap Line.tokens, least := 1, outer := [0] } :=
    Blocks.foldl_addLine_of_deeper (Nat.le_refl 0) (List.cons_ne_nil _ _) (by simp [headerLines])
  have hne : s.optionLines ≠ [] := List.cons_ne_nil _ _
  rw [lines, List.foldl_append, hheader,
    Blocks.foldl_addLine_of_deeper (by decide) hne s.indent_of_mem_optionLines, tokens_optionLines]
  simp only [Blocks.close, entries, List.flatMap_cons, List.flatMap_nil]
  -- two blocks are open at the end
  change _ ++ [Token.blockEnd, Token.blockEnd] = _
  simp [headerLines, Line.tokens, Entry.ofWord, Entry.tokens]

theorem ofText?_toText (s : Settings) :
    Yaml.Document.ofText? s.toText = some { root := .ofFields (s.entries.map Entry.field) } := by
  have htokens := Token.ofText?_lines s.toList_toText s.isChain_lines
  rw [close_lines] at htokens
  exact Yaml.Document.ofText?_of_reads htokens (reads_ofFields s.entries)

/-! ## Fields -/

theorem optional?_name (t : PathTracking) :
    Node.optional? (Node.choice? PathTracking.ofName?) (some (.plain t.name)) = some (some t) := by
  cases t <;> rfl

theorem optional?_flagText (b : Bool) :
    Node.optional? Node.flag? (some (.plain (flagText b))) = some (some b) := by
  cases b <;> rfl

/-- The counts are numbers of 64 bits. -/
structure WordSized (s : Settings) : Prop where
  accessPathLength : s.accessPathLength < 2 ^ 64
  batchSize : s.batchSize < 2 ^ 64
  maxPropagations : s.maxPropagations < 2 ^ 64

theorem optional?_count {n : Nat} (h : n < 2 ^ 64) :
    Node.optional? (Node.count? maxCount) (some (.plain n.repr)) = some (some n) :=
  Node.optional?_repr (Nat.le_of_lt_succ h)

/-- Overrides of all options. -/
def overrides (s : Settings) : Overrides where
  pathTracking := some s.pathTracking
  inspectSinks := some s.inspectSinks
  stopAfterFirstFlow := some s.stopAfterFirstFlow
  accessPathLength := some s.accessPathLength
  parallel := some s.parallel
  batchSize := some s.batchSize
  maxPropagations := some s.maxPropagations

theorem override_overrides (base s : Settings) : base.override s.overrides = s := by
  rfl

theorem follow?_optionEntries (s : Settings) (d : Yaml.Document) :
    ∀ f ∈ s.optionEntries.map Entry.field, d.follow? f.2 = some f.2 := by
  intro f hf
  rw [optionEntries, List.map_map] at hf
  rcases List.mem_map.mp hf with ⟨o, ho, rfl⟩
  rfl

theorem ofNode?_optionEntries {s : Settings} (h : s.WordSized) (d : Yaml.Document) :
    Overrides.ofNode? d (.ofFields (s.optionEntries.map Entry.field)) = some s.overrides := by
  unfold Overrides.ofNode?
  -- the keys are the known ones, so each option is looked up under its name
  rw [Yaml.Document.fields?_ofFields (s.follow?_optionEntries d), Option.bind_eq_bind,
    Option.bind_some]
  · simp only [optionEntries, options, List.map_cons, List.map_nil, Entry.ofWord, Entry.field,
      List.lookup_cons, String.reduceBEq, optional?_name, optional?_flagText,
      optional?_count h.accessPathLength, optional?_count h.batchSize,
      optional?_count h.maxPropagations]
    rfl
  · simp [optionEntries, options, Entry.ofWord, Entry.field]
  · simp [optionEntries, options, Entry.ofWord, Entry.field]

theorem ofYaml?_entries {s : Settings} (h : s.WordSized) :
    Document.ofYaml? { root := .ofFields (s.entries.map Entry.field) } =
      some { version := some 1, preset := "balanced", overrides := some s.overrides } := by
  have hversion : Node.optional? (Node.count? maxVersion) (some (.plain "1")) = some (some 1) := by
    have hone : 1 ≤ maxVersion := by decide
    exact Node.optional?_repr hone
  have hoverrides : ∀ d, Node.optional? (Overrides.ofNode? d)
      (some (.ofFields (s.optionEntries.map Entry.field))) = some (some s.overrides) := by
    intro d
    change (Overrides.ofNode? d _).map some = _
    rw [ofNode?_optionEntries h]
    rfl
  unfold Document.ofYaml?
  rw [Yaml.Document.fields?_ofFields, Option.bind_eq_bind, Option.bind_some]
  · simp only [entries, List.map_cons, List.map_nil, Entry.ofWord, Entry.field, List.lookup_cons,
      String.reduceBEq, hversion, hoverrides]
    rfl
  · simp only [entries, List.map_cons, List.map_nil, List.forall_mem_cons]
    exact ⟨rfl, rfl, rfl, List.forall_mem_nil _⟩
  · simp [entries, Entry.ofWord, Entry.field]
  · simp [entries, Entry.ofWord, Entry.field]

/-! ## Settings -/

theorem settings_overrides (s : Settings) :
    Document.settings { version := some 1, preset := "balanced", overrides := some s.overrides } =
      s.validate.map fun _ => s := by
  -- the version passes, so the preset is read first
  change (Preset.ofName Preset.balanced.name >>= _) = _
  rw [Preset.ofName_name]
  change (do
    (Preset.balanced.settings.override s.overrides).validate
    return Preset.balanced.settings.override s.overrides) = _
  rw [override_overrides]
  cases s.validate with
  | ok => rfl
  | error e => rfl

theorem ofText_toText_eq {s : Settings} (h : s.WordSized) :
    ofText s.toText = s.validate.map fun _ => s := by
  unfold ofText
  rw [ofText?_toText, Option.bind_eq_bind, Option.bind_some, ofYaml?_entries h]
  exact settings_overrides s

/-- A value is reported that is not in the range that is reported. -/
def Failure.IsOutOfRange (e : Failure) : Prop :=
  ∃ field value least most hint, e = .range field value least most hint ∧
    ¬ (least ≤ value ∧ value ≤ most)

theorem isOutOfRange_of_checkRange {field hint : String} {value least most : Nat} {e : Failure}
    (h : checkRange field value least most hint = .error e) : e.IsOutOfRange := by
  unfold checkRange at h
  split at h
  · cases h
  · next hrange =>
    cases h
    exact ⟨field, value, least, most, hint, rfl, hrange⟩

theorem isOutOfRange_of_validate {s : Settings} {e : Failure} (h : s.validate = .error e) :
    e.IsOutOfRange := by
  unfold validate at h
  cases hpath : checkRange "access_path_length" s.accessPathLength 1 32
      "Access paths need at least one field to stay field-sensitive" with
  | ok =>
    rw [hpath] at h
    exact isOutOfRange_of_checkRange h
  | error e' =>
    rw [hpath] at h
    cases h
    exact isOutOfRange_of_checkRange hpath

/-- The text of valid settings is read as these settings. The text of other settings is refused with
the failure of their validation, which reports a value that is out of its range. -/
theorem ofText_toText {s : Settings} (h : s.WordSized) :
    (s.validate = .ok () → ofText s.toText = .ok s) ∧
      ∀ e, s.validate = .error e → ofText s.toText = .error e ∧ e.IsOutOfRange := by
  rw [ofText_toText_eq h]
  constructor
  · intro hvalid
    rw [hvalid]
    rfl
  · intro e hinvalid
    rw [hinvalid]
    exact ⟨rfl, isOutOfRange_of_validate hinvalid⟩

/-- The largest counts are read back, or refused, as any others are. -/
theorem ofText_toText_largest :
    ofText (toText
        { accessPathLength := 32, batchSize := 1000000, maxPropagations := 2 ^ 64 - 1 }) =
        .ok { accessPathLength := 32, batchSize := 1000000, maxPropagations := 2 ^ 64 - 1 } ∧
      ofText (toText { pathTracking := .forward, batchSize := 2 ^ 64 - 1 }) =
        .error (.range "batch_size" (2 ^ 64 - 1) 1 1000000
          "Each solver step must take at least one worklist item") :=
  ⟨(ofText_toText ⟨by decide, by decide, by decide⟩).1 rfl,
    ((ofText_toText ⟨by decide, by decide, by decide⟩).2 _ rfl).1⟩

end Settings

end TaintFlow
