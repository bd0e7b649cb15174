import Mathlib.Data.List.Forall2
import Mathlib.Data.Option.Basic
import TaintFlow.Error
import TaintFlow.Proofs.Text.Space

/-!
# The notation of signatures

A `Layout` is one way to write `<Class: ret name(params)>`, part by part, with the blanks between
the parts. Return types and names may hold colons and angle brackets, and return types parentheses
too, so that it is not plain where a part ends. Still no text has two layouts
(`Layout.chars_injective`), and the texts that are read are those that have one: reading a layout
gives what it denotes (`parseChars?_chars`), and whatever is read was laid out
(`exists_layout_of_parseChars?`).
-/

namespace TaintFlow.Signature

open Text

/-- The parts of a written signature. -/
structure Layout where
  before : List Char
  className : List Char
  afterColon : List Char
  returnType : List Char
  afterType : List Char
  name : List Char
  params : List Char
  after : List Char
  before_blank : Blank before
  className_ne : className ≠ []
  className_plain : ∀ c ∈ className, c ≠ ':' ∧ c ≠ '<' ∧ c ≠ '>' ∧ isSpace c = false
  afterColon_ne : afterColon ≠ []
  afterColon_blank : Blank afterColon
  returnType_ne : returnType ≠ []
  returnType_solid : ∀ c ∈ returnType, isSpace c = false
  afterType_ne : afterType ≠ []
  afterType_blank : Blank afterType
  name_ne : name ≠ []
  name_solid : ∀ c ∈ name, isSpace c = false ∧ c ≠ '('
  params_flat : ∀ c ∈ params, c ≠ '(' ∧ c ≠ ')'
  after_blank : Blank after

/-- The types in a parameter list: the texts between its commas, trimmed, those left empty aside. -/
def TypesOf (cs : List Char) (types : List String) : Prop :=
  ∃ slots cores, Separates ',' slots cs ∧ List.Forall₂ Trims slots cores ∧
    types.map String.toList = cores.filter (· ≠ [])

namespace Layout

/-- The text of a layout. -/
def chars (l : Layout) : List Char :=
  l.before ++ '<' :: (l.className ++ ':' :: (l.afterColon ++ (l.returnType ++ (l.afterType ++
    (l.name ++ '(' :: (l.params ++ ')' :: '>' :: l.after))))))

/-- The signature has the parts of the layout. -/
structure Denotes (l : Layout) (s : Signature) : Prop where
  className : s.className.toList = l.className
  returnType : s.returnType.toList = l.returnType
  name : s.name.toList = l.name
  params : TypesOf l.params s.params

def signature (l : Layout) : Signature where
  className := String.ofList l.className
  returnType := String.ofList l.returnType
  name := String.ofList l.name
  params := paramTypes l.params

end Layout

/-! ## Classes of characters -/

theorem isClassChar_iff {c : Char} :
    isClassChar c = true ↔ c ≠ ':' ∧ c ≠ '<' ∧ c ≠ '>' ∧ isSpace c = false := by
  simp [isClassChar, and_assoc]

theorem isTypeChar_iff {c : Char} : isTypeChar c = true ↔ isSpace c = false := by
  simp [isTypeChar]

theorem isNameChar_iff {c : Char} : isNameChar c = true ↔ isSpace c = false ∧ c ≠ '(' := by
  simp [isNameChar]

theorem isParamChar_iff {c : Char} : isParamChar c = true ↔ c ≠ '(' ∧ c ≠ ')' := by
  simp [isParamChar]

/-! ## Parameter types -/

theorem forall₂_trims_iff {slots cores : List (List Char)} :
    List.Forall₂ Trims slots cores ↔ slots.map trim = cores := by
  rw [← List.forall₂_eq_eq_eq, List.forall₂_map_left_iff]
  simp only [trim_eq_iff]

theorem paramTypes_eq_iff {cs : List Char} {types : List String} :
    paramTypes cs = types ↔ TypesOf cs types := by
  have hmap : ∀ kept : List (List Char),
      kept.map String.ofList = types ↔ types.map String.toList = kept := by
    intro kept
    constructor
    · rintro rfl
      simp [Function.comp_def]
    · rintro rfl
      simp [Function.comp_def]
  unfold paramTypes TypesOf
  rw [hmap]
  constructor
  · intro h
    exact ⟨_, _, separates_pieces ',' cs, forall₂_trims_iff.mpr rfl, h⟩
  · rintro ⟨slots, cores, hslots, hcores, h⟩
    rw [pieces_eq_iff.mpr hslots, forall₂_trims_iff.mp hcores]
    exact h

namespace Layout

variable (l : Layout)

theorem denotes_iff {s : Signature} : l.Denotes s ↔ l.signature = s := by
  constructor
  · intro h
    unfold signature
    rw [← h.className, ← h.returnType, ← h.name, paramTypes_eq_iff.mpr h.params]
    simp
  · rintro rfl
    exact ⟨String.toList_ofList, String.toList_ofList, String.toList_ofList,
      paramTypes_eq_iff.mp rfl⟩

/-! ## Where the parts end

Each part is a run of the characters of its class, and what comes after it is not in that class. -/

theorem stops_open (rest : List Char) : Stops isSpace ('<' :: rest) :=
  stops_cons.mpr rfl

theorem stops_colon (rest : List Char) : Stops isClassChar (':' :: rest) :=
  stops_cons.mpr rfl

theorem stops_paren (rest : List Char) : Stops isNameChar ('(' :: rest) :=
  stops_cons.mpr rfl

theorem stops_close (rest : List Char) : Stops isParamChar (')' :: rest) :=
  stops_cons.mpr rfl

theorem isClassChar_className : ∀ c ∈ l.className, isClassChar c = true :=
  fun c hc => isClassChar_iff.mpr (l.className_plain c hc)

theorem isTypeChar_returnType : ∀ c ∈ l.returnType, isTypeChar c = true :=
  fun c hc => isTypeChar_iff.mpr (l.returnType_solid c hc)

theorem isNameChar_name : ∀ c ∈ l.name, isNameChar c = true :=
  fun c hc => isNameChar_iff.mpr (l.name_solid c hc)

theorem isParamChar_params : ∀ c ∈ l.params, isParamChar c = true :=
  fun c hc => isParamChar_iff.mpr (l.params_flat c hc)

theorem stops_returnType (rest : List Char) : Stops isSpace (l.returnType ++ rest) :=
  stops_append l.returnType_ne (stops_of_forall l.returnType_solid) rest

theorem stops_afterType (rest : List Char) : Stops isTypeChar (l.afterType ++ rest) := by
  apply stops_append l.afterType_ne
  apply stops_of_forall
  intro c hc
  simp [isTypeChar, l.afterType_blank c hc]

theorem stops_name (rest : List Char) : Stops isSpace (l.name ++ rest) :=
  stops_append l.name_ne (stops_of_forall fun c hc => (l.name_solid c hc).1) rest

/-- A layout is read as the signature that it denotes. -/
theorem parseChars?_chars : parseChars? l.chars = some l.signature := by
  have hafter : l.after.all isSpace = true := List.all_eq_true.mpr l.after_blank
  unfold parseChars? chars
  simp only [Option.bind_eq_bind, Option.bind_some, expect?_cons,
    trimStart_blank_append l.before_blank (stops_open _),
    run?_append l.className_ne l.isClassChar_className (stops_colon _),
    run?_append l.afterColon_ne l.afterColon_blank (l.stops_returnType _),
    run?_append l.returnType_ne l.isTypeChar_returnType (l.stops_afterType _),
    run?_append l.afterType_ne l.afterType_blank (l.stops_name _),
    run?_append l.name_ne l.isNameChar_name (stops_paren _),
    takeWhile_run l.isParamChar_params (stops_close _),
    dropWhile_run l.isParamChar_params (stops_close _)]
  unfold guard
  rw [if_pos hafter]
  rfl

/-- No text has two layouts. -/
theorem chars_injective : Function.Injective chars := by
  intro l l' h
  unfold chars at h
  -- from the front to the back, each part is the longest run of its class
  rcases eq_of_append_eq h l.before_blank (stops_open _) l'.before_blank (stops_open _) with
    ⟨hbefore, h⟩
  rcases eq_of_append_eq (List.cons_inj_right _ |>.mp h) l.isClassChar_className (stops_colon _)
    l'.isClassChar_className (stops_colon _) with ⟨hclass, h⟩
  rcases eq_of_append_eq (List.cons_inj_right _ |>.mp h) l.afterColon_blank (l.stops_returnType _)
    l'.afterColon_blank (l'.stops_returnType _) with ⟨hcolon, h⟩
  rcases eq_of_append_eq h l.isTypeChar_returnType (l.stops_afterType _) l'.isTypeChar_returnType
    (l'.stops_afterType _) with ⟨htype, h⟩
  rcases eq_of_append_eq h l.afterType_blank (l.stops_name _) l'.afterType_blank
    (l'.stops_name _) with ⟨hgap, h⟩
  rcases eq_of_append_eq h l.isNameChar_name (stops_paren _) l'.isNameChar_name (stops_paren _) with
    ⟨hname, h⟩
  rcases eq_of_append_eq (List.cons_inj_right _ |>.mp h) l.isParamChar_params (stops_close _)
    l'.isParamChar_params (stops_close _) with ⟨hparams, h⟩
  have hafter : l.after = l'.after := by simpa using h
  cases l
  cases l'
  simp_all

end Layout

/-- Whatever is read was laid out. -/
theorem exists_layout_of_parseChars? {cs : List Char} {s : Signature}
    (h : parseChars? cs = some s) :
    ∃ l : Layout, l.chars = cs ∧ l.signature = s := by
  unfold parseChars? at h
  simp only [Option.bind_eq_bind, Option.bind_eq_some_iff, Prod.exists, expect?_eq_some_iff,
    run?_eq_some_iff] at h
  rcases h with ⟨_, hopen, className, _, ⟨rfl, hclass_ne, hclass, -⟩, _, rfl,
    afterColon, _, ⟨rfl, hcolon_ne, hcolon, -⟩, returnType, _, ⟨rfl, htype_ne, htype, -⟩,
    afterType, _, ⟨rfl, hgap_ne, hgap, -⟩, name, _, ⟨rfl, hname_ne, hname, -⟩,
    inner, rfl, _, hclose, after, rfl, _, hafter, hs⟩
  have hblank : Blank after := by
    unfold guard at hafter
    split at hafter
    · next hall => exact List.all_eq_true.mp hall
    · cases hafter
  rcases exists_blank_trimStart cs with ⟨before, hbefore, hcs⟩
  refine ⟨{
    before, className, afterColon, returnType, afterType, name, after
    params := inner.takeWhile isParamChar
    before_blank := hbefore
    className_ne := hclass_ne
    className_plain := fun c hc => isClassChar_iff.mp (hclass c hc)
    afterColon_ne := hcolon_ne
    afterColon_blank := hcolon
    returnType_ne := htype_ne
    returnType_solid := fun c hc => isTypeChar_iff.mp (htype c hc)
    afterType_ne := hgap_ne
    afterType_blank := hgap
    name_ne := hname_ne
    name_solid := fun c hc => isNameChar_iff.mp (hname c hc)
    params_flat := fun c hc => isParamChar_iff.mp (List.mem_takeWhile_imp hc)
    after_blank := hblank }, ?_, Option.some.inj hs⟩
  -- the parameter list and what closes it are the two halves of the text after the parenthesis
  have hinner : inner.takeWhile isParamChar ++ ')' :: '>' :: after = inner := by
    rw [← hclose]
    exact List.takeWhile_append_dropWhile
  unfold Layout.chars
  rw [hinner, ← hopen]
  exact hcs.symm

/-! ## Reading texts -/

theorem require_eq_ok_iff {text : String} {s : Signature} :
    require text = .ok s ↔ parse? text = some s := by
  unfold require
  cases parse? text <;> simp

theorem require_of_parse?_eq_none {text : String} (h : parse? text = none) :
    require text = .error (.invalidSignature text) := by
  unfold require
  rw [h]

theorem require_of_layout {text : String} {l : Layout} (h : l.chars = text.toList) :
    require text = .ok l.signature := by
  rw [require_eq_ok_iff]
  unfold parse?
  rw [← h]
  exact l.parseChars?_chars

theorem exists_layout_of_require {text : String} {s : Signature} (h : require text = .ok s) :
    ∃ l : Layout, l.chars = text.toList ∧ l.signature = s :=
  exists_layout_of_parseChars? (require_eq_ok_iff.mp h)

/-- A text is read if and only if it has a layout. It has no other layout then, and what is read is
the signature that the layout denotes. Any other text is refused and reported as it stands. -/
theorem require_reads_layouts (text : String) :
    ((∃ s, require text = .ok s) ↔ ∃ l : Layout, l.chars = text.toList) ∧
    (∀ l : Layout, l.chars = text.toList →
      (∀ l' : Layout, l'.chars = text.toList → l' = l) ∧
      ∃ s, require text = .ok s ∧ l.Denotes s) ∧
    ((¬ ∃ l : Layout, l.chars = text.toList) →
      require text = .error (.invalidSignature text)) := by
  refine ⟨⟨?_, ?_⟩, ?_, ?_⟩
  · rintro ⟨s, hs⟩
    rcases exists_layout_of_require hs with ⟨l, hl, -⟩
    exact ⟨l, hl⟩
  · rintro ⟨l, hl⟩
    exact ⟨l.signature, require_of_layout hl⟩
  · intro l hl
    refine ⟨?_, l.signature, require_of_layout hl, (l.denotes_iff).mpr rfl⟩
    intro l' hl'
    exact Layout.chars_injective (hl'.trans hl.symm)
  · intro hnone
    apply require_of_parse?_eq_none
    by_contra hsome
    rcases Option.ne_none_iff_exists'.mp hsome with ⟨s, hs⟩
    rcases exists_layout_of_parseChars? hs with ⟨l, hl, -⟩
    exact hnone ⟨l, hl⟩

/-- Colons, brackets and parentheses inside the parts do not mislead the reader. -/
theorem require_reads_layouts_brackets :
    ∃ l : Layout, l.chars = "\t<a.B:  (x):> <init>( int,, java.util.Map<K, V>)>\n".toList ∧
      l.Denotes ⟨"a.B", "(x):>", "<init>", ["int", "java.util.Map<K", "V>"]⟩ := by
  have hread : require "\t<a.B:  (x):> <init>( int,, java.util.Map<K, V>)>\n" =
      .ok ⟨"a.B", "(x):>", "<init>", ["int", "java.util.Map<K", "V>"]⟩ := by
    decide +kernel
  rcases require_reads_layouts "\t<a.B:  (x):> <init>( int,, java.util.Map<K, V>)>\n" with
    ⟨haccepted, hunique, -⟩
  rcases haccepted.mp ⟨_, hread⟩ with ⟨l, hl⟩
  rcases (hunique l hl).2 with ⟨s, hs, hdenotes⟩
  cases hs.symm.trans hread
  exact ⟨l, hl, hdenotes⟩

end TaintFlow.Signature
