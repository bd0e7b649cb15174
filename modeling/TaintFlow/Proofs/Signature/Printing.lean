import TaintFlow.Proofs.Signature.Grammar

/-!
# Printed signatures

A printed signature is a text with a layout of its own: one blank after the colon and one before the
name, and the parameter types joined by commas (`Layout.printed`). It denotes the signature that was
printed, so that the printed text is read as what it was printed from (`require_text`) and tells
signatures apart.
-/

namespace TaintFlow.Signature

open Text

/-! ## Parameter lists -/

/-- A text that is kept as it is when it stands between two commas of a parameter list. -/
structure FillsSlot (cs : List Char) : Prop where
  ne_nil : cs ≠ []
  trimmed : trim cs = cs
  whole : ',' ∉ cs

theorem fillsSlot_of_mem_paramTypes {cs : List Char} {type : String} (h : type ∈ paramTypes cs) :
    FillsSlot type.toList ∧ type.toList ⊆ cs := by
  unfold paramTypes at h
  rcases List.mem_map.mp h with ⟨core, hcore, rfl⟩
  rw [String.toList_ofList]
  rcases List.mem_filter.mp hcore with ⟨hcore, hne⟩
  rcases List.mem_map.mp hcore with ⟨slot, hslot, rfl⟩
  have hslots := separates_pieces ',' cs
  refine ⟨⟨of_decide_eq_true hne, trim_trim slot, ?_⟩, ?_⟩
  · intro hcomma
    exact hslots.apart slot hslot (trim_subset slot hcomma)
  · intro c hc
    rw [← hslots.joined]
    exact subset_intercalate hslot (trim_subset slot hc)

/-- Types that fill their slots are read back from the list that joins them. -/
theorem paramTypes_intercalate {types : List String} (h : ∀ type ∈ types, FillsSlot type.toList) :
    paramTypes ([','].intercalate (types.map String.toList)) = types := by
  by_cases hne : types = []
  · -- the empty list has one slot, and nothing is in it
    subst hne
    rfl
  -- a type that fills its slot has no comma, so the slots of the joined text are the types
  · have hslots : Separates ',' (types.map String.toList)
        ([','].intercalate (types.map String.toList)) := by
      refine ⟨by simpa using hne, ?_, rfl⟩
      intro slot hslot
      rcases List.mem_map.mp hslot with ⟨type, htype, rfl⟩
      exact (h type htype).whole
    unfold paramTypes
    rw [pieces_eq_iff.mpr hslots, List.map_map]
    have htrim : types.map (trim ∘ String.toList) = types.map String.toList :=
      List.map_congr_left fun type htype => (h type htype).trimmed
    have hkept : (types.map String.toList).filter (· ≠ []) = types.map String.toList := by
      apply List.filter_eq_self.mpr
      intro slot hslot
      rcases List.mem_map.mp hslot with ⟨type, htype, rfl⟩
      exact decide_eq_true (h type htype).ne_nil
    rw [htrim, hkept, List.map_map]
    simp [Function.comp_def]

/-! ## The printed layout -/

namespace Layout

variable (l : Layout)

theorem flat_intercalate : ∀ c ∈ [','].intercalate (l.signature.params.map String.toList),
    c ≠ '(' ∧ c ≠ ')' := by
  intro c hc
  rcases mem_intercalate hc with rfl | ⟨slot, hslot, hc⟩
  · decide
  · rcases List.mem_map.mp hslot with ⟨type, htype, rfl⟩
    exact l.params_flat c ((fillsSlot_of_mem_paramTypes htype).2 hc)

theorem space_ne_nil : [' '] ≠ [] :=
  List.cons_ne_nil _ _

/-- The layout in which the signature of `l` is printed. -/
def printed : Layout :=
  { l with
    before := []
    afterColon := [' ']
    afterType := [' ']
    params := [','].intercalate (l.signature.params.map String.toList)
    after := []
    before_blank := blank_nil
    afterColon_ne := space_ne_nil
    afterColon_blank := blank_space
    afterType_ne := space_ne_nil
    afterType_blank := blank_space
    params_flat := l.flat_intercalate
    after_blank := blank_nil }

theorem chars_printed : l.printed.chars = l.signature.text.toList := by
  simp [chars, printed, text, subSignature, signature, String.toList_intercalate]

theorem signature_printed : l.printed.signature = l.signature := by
  have hparams : paramTypes l.printed.params = l.signature.params := by
    apply paramTypes_intercalate
    intro type htype
    exact (fillsSlot_of_mem_paramTypes htype).1
  unfold signature at hparams ⊢
  rw [hparams]
  rfl

end Layout

/-- A signature that was read is read again from its own text. -/
theorem require_text {text : String} {s : Signature} (h : require text = .ok s) :
    require s.text = .ok s := by
  rcases exists_layout_of_require h with ⟨l, -, rfl⟩
  rw [require_of_layout l.chars_printed, l.signature_printed]

theorem text_eq_of_parts {s s' : Signature} (hclass : s.className = s'.className)
    (hsub : s.subSignature = s'.subSignature) : s.text = s'.text := by
  unfold text
  rw [hclass, hsub]

/-- Signatures that were read are the same if they are printed alike. -/
theorem eq_of_text_eq {text text' : String} {s s' : Signature} (h : require text = .ok s)
    (h' : require text' = .ok s') (htext : s.text = s'.text) : s = s' := by
  have hread := require_text h
  rw [htext, require_text h'] at hread
  exact (Except.ok.inj hread).symm

/-- The text of a signature is a normal form of the texts that are read as this signature, and a
signature that was read is determined by its text, or by its class and its sub-signature. -/
theorem text_normal_form {text : String} {s : Signature} (h : require text = .ok s) :
    require s.text = .ok s ∧
    ∀ text' s', require text' = .ok s' →
      (s.text = s'.text → s = s') ∧
      (require text = require text' ↔ s.text = s'.text) ∧
      (s.className = s'.className → s.subSignature = s'.subSignature → s = s') := by
  refine ⟨require_text h, ?_⟩
  intro text' s' h'
  refine ⟨eq_of_text_eq h h', ⟨?_, ?_⟩, ?_⟩
  · intro hsame
    rw [h, h'] at hsame
    rw [Except.ok.inj hsame]
  · intro htext
    rw [h, h', eq_of_text_eq h h' htext]
  · intro hclass hsub
    exact eq_of_text_eq h h' (text_eq_of_parts hclass hsub)

/-- Blanks and empty slots are lost in print, and nothing else. -/
theorem text_normal_form_spaced :
    ∃ s, require " <a.B:\tf(x)  <init>( int,, Map<K )> " = .ok s ∧
      s.text = "<a.B: f(x) <init>(int,Map<K)>" ∧ require s.text = .ok s := by
  have hread : require " <a.B:\tf(x)  <init>( int,, Map<K )> " =
      .ok ⟨"a.B", "f(x)", "<init>", ["int", "Map<K"]⟩ := by
    decide +kernel
  exact ⟨_, hread, by decide +kernel, (text_normal_form hread).1⟩

end TaintFlow.Signature
