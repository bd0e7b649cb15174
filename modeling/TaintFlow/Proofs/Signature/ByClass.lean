import TaintFlow.Proofs.Grouping
import TaintFlow.Proofs.Run
import TaintFlow.Proofs.Signature.Printing
import TaintFlow.Signature.ByClass

/-!
# Grouping agrees with reading

Texts are grouped by a rule of their own, which looks for the first colon and the last bracket and
knows nothing of return types, names and parameters. On a text that has a layout and stands on one
line it finds the colon behind the class and the bracket that closes the layout
(`classAndRest?_of_layout`), whatever colons and brackets the parts have. The class is then the
class of the signature, and in a printed signature what is left is the sub-signature.
-/

namespace TaintFlow.Signature

open Text

/-- A colon behind a class is the first one. -/
theorem splitClass?_append {className w rest : List Char}
    (hclass : ∀ c ∈ className, c ≠ ':' ∧ c ≠ '\n')
    (hw : Blank w) (hrest : Stops isSpace rest) (hlines : '\n' ∉ rest) (seen : List Char) :
    splitClass? seen (className ++ ':' :: (w ++ rest)) =
      some (seen.reverse ++ className, rest) := by
  induction className generalizing seen with
  | nil =>
    rw [List.nil_append, splitClass?, trimStart_blank_append hw hrest, if_pos ⟨rfl, hlines⟩,
      List.append_nil]
  | cons c className ih =>
    rw [List.forall_mem_cons] at hclass
    rw [List.cons_append, splitClass?, if_neg fun h => hclass.1.1 h.1, if_neg hclass.1.2,
      ih hclass.2]
    simp

namespace Layout

variable (l : Layout)

/-- What stands between the blanks behind the colon and the closing bracket. -/
def rest : List Char :=
  l.returnType ++ (l.afterType ++ (l.name ++ '(' :: (l.params ++ [')'])))

theorem chars_eq_rest : l.chars =
    l.before ++ '<' :: (l.className ++ ':' :: (l.afterColon ++ l.rest) ++ ['>'] ++ l.after) := by
  simp [chars, rest]

theorem rest_printed : l.printed.rest = l.signature.subSignature.toList := by
  simp [rest, printed, subSignature, signature, String.toList_intercalate]

end Layout

theorem classAndRest?_of_layout {text : String} {l : Layout} (h : l.chars = text.toList)
    (hlines : '\n' ∉ text.toList) :
    classAndRest? text = some (l.signature.className, String.ofList l.rest) := by
  rw [← h, l.chars_eq_rest] at hlines
  have hclass : ∀ c ∈ l.className, c ≠ ':' ∧ c ≠ '\n' := by
    intro c hc
    refine ⟨(l.className_plain c hc).1, ?_⟩
    rintro rfl
    simp [hc] at hlines
  have hrest : '\n' ∉ l.rest := by
    intro hmem
    simp [hmem] at hlines
  have hstops : Stops isSpace l.rest := l.stops_returnType _
  -- the last bracket closes the layout, since only blanks come after it
  have htrim :
      (trimEnd (l.className ++ ':' :: (l.afterColon ++ l.rest) ++ ['>'] ++ l.after)).reverse =
      '>' :: (l.className ++ ':' :: (l.afterColon ++ l.rest)).reverse := by
    rw [trimEnd_append_blank l.after_blank, List.reverse_concat]
    rw [List.reverse_concat]
    exact stops_cons.mpr rfl
  unfold classAndRest?
  rw [← h, l.chars_eq_rest, trimStart_blank_append l.before_blank (Layout.stops_open _)]
  simp only [Option.bind_eq_bind, Option.bind_some, expect?_cons, htrim, List.reverse_reverse,
    splitClass?_append hclass l.afterColon_blank hstops hrest]
  rfl

/-- The text of a signature that was read. -/
def IsPrinted (text : String) : Prop := ∃ source s, require source = .ok s ∧ s.text = text

theorem text_of_isPrinted {text : String} {s : Signature} (hprinted : IsPrinted text)
    (h : require text = .ok s) : s.text = text := by
  rcases hprinted with ⟨source, s', hsource, rfl⟩
  rw [require_text hsource] at h
  rw [Except.ok.inj h]

section

variable {text : String} {s : Signature}

theorem filing?_whole (h : require text = .ok s) (hlines : '\n' ∉ text.toList) :
    filing? false text = some (s.className, text) := by
  rcases exists_layout_of_require h with ⟨l, hl, rfl⟩
  unfold filing?
  rw [classAndRest?_of_layout hl hlines]
  rfl

theorem filing?_sub (h : require text = .ok s) (hprinted : IsPrinted text)
    (hlines : '\n' ∉ text.toList) :
    filing? true text = some (s.className, s.subSignature) := by
  have htext := text_of_isPrinted hprinted h
  rcases exists_layout_of_require h with ⟨l, -, rfl⟩
  have hprint : l.printed.chars = text.toList := by rw [l.chars_printed, htext]
  unfold filing?
  rw [classAndRest?_of_layout hprint hlines, l.rest_printed, l.signature_printed,
    String.ofList_toList]
  rfl

end

/-- Texts that are filed one by one are filed in their order. -/
theorem files_byClass {sub : Bool} {texts : List String} {signatures : List Signature}
    {entry : String → Signature → String} (hread : texts.mapM require = .ok signatures)
    (hfiling : ∀ text ∈ texts, ∀ s, require text = .ok s →
      filing? sub text = some (s.className, entry text s)) :
    Grouping.Files (byClass texts sub)
      ((texts.zip signatures).map fun r => (r.2.className, entry r.1 r.2)) := by
  have hfiled : texts.filterMap (filing? sub) =
      (texts.zip signatures).map fun r => (r.2.className, entry r.1 r.2) := by
    rw [mapM_eq_ok_iff] at hread
    induction texts generalizing signatures with
    | nil => rfl
    | cons text texts ih =>
      cases signatures with
      | nil => cases hread
      | cons s signatures =>
        rw [List.map_cons, List.map_cons, List.cons.injEq] at hread
        rw [List.forall_mem_cons] at hfiling
        rw [List.filterMap_cons, hfiling.1 s hread.1, ih hread.2 hfiling.2]
        rfl
  unfold byClass
  rw [hfiled]
  exact Grouping.files_ofList _

/-- Texts that can be read, each on one line, are filed under the classes of their signatures, every
text once and in the order given. Of printed signatures the sub-signatures are filed in the same
way, under the same classes. -/
theorem byClass_files_read {texts : List String} {signatures : List Signature}
    (hread : texts.mapM require = .ok signatures) (hlines : ∀ text ∈ texts, '\n' ∉ text.toList) :
    Grouping.Files (byClass texts false)
      ((texts.zip signatures).map fun r => (r.2.className, r.1)) ∧
    ((∀ text ∈ texts, IsPrinted text) →
      Grouping.Files (byClass texts true)
        ((texts.zip signatures).map fun r => (r.2.className, r.2.subSignature)) ∧
      ∀ key, key ∈ (byClass texts true).map (·.1) ↔ key ∈ (byClass texts false).map (·.1)) := by
  have hwhole : Grouping.Files (byClass texts false)
      ((texts.zip signatures).map fun r => (r.2.className, r.1)) :=
    files_byClass hread fun text htext s hs => filing?_whole hs (hlines text htext)
  refine ⟨hwhole, ?_⟩
  intro hprinted
  have hsub : Grouping.Files (byClass texts true)
      ((texts.zip signatures).map fun r => (r.2.className, r.2.subSignature)) :=
    files_byClass hread fun text htext s hs =>
      filing?_sub hs (hprinted text htext) (hlines text htext)
  refine ⟨hsub, ?_⟩
  intro key
  rw [hsub.mem_keys_iff, hwhole.mem_keys_iff, List.map_map, List.map_map]
  rfl

/-- Colons and brackets in the parts, two classes, and a text that comes twice. -/
theorem byClass_files_read_twice :
    ∃ signatures,
      ["<a.B: x:> <init>(c:d)>", "<C: void f()>", "<a.B: x:> <init>(c:d)>"].mapM require =
        .ok signatures ∧
      byClass ["<a.B: x:> <init>(c:d)>", "<C: void f()>", "<a.B: x:> <init>(c:d)>"] true =
        [("a.B", ["x:> <init>(c:d)", "x:> <init>(c:d)"]), ("C", ["void f()"])] ∧
      Grouping.Files (byClass ["<a.B: x:> <init>(c:d)>", "<C: void f()>",
        "<a.B: x:> <init>(c:d)>"] true)
        [("a.B", "x:> <init>(c:d)"), ("C", "void f()"), ("a.B", "x:> <init>(c:d)")] := by
  have hread : ["<a.B: x:> <init>(c:d)>", "<C: void f()>", "<a.B: x:> <init>(c:d)>"].mapM require =
      .ok [⟨"a.B", "x:>", "<init>", ["c:d"]⟩, ⟨"C", "void", "f", []⟩,
        ⟨"a.B", "x:>", "<init>", ["c:d"]⟩] := by
    decide +kernel
  have hfirst : IsPrinted "<a.B: x:> <init>(c:d)>" :=
    ⟨"<a.B: x:> <init>(c:d)>", ⟨"a.B", "x:>", "<init>", ["c:d"]⟩, by decide +kernel,
      by decide +kernel⟩
  have hsecond : IsPrinted "<C: void f()>" :=
    ⟨"<C: void f()>", ⟨"C", "void", "f", []⟩, by decide +kernel, by decide +kernel⟩
  have hprinted : ∀ text ∈ ["<a.B: x:> <init>(c:d)>", "<C: void f()>", "<a.B: x:> <init>(c:d)>"],
      IsPrinted text := by
    simp only [List.forall_mem_cons]
    exact ⟨hfirst, hsecond, hfirst, List.forall_mem_nil _⟩
  refine ⟨_, hread, by decide +kernel, ?_⟩
  exact ((byClass_files_read hread (by decide +kernel)).2 hprinted).1

/-- A line feed between the parentheses is read, and the text is not grouped. -/
example : (require "<A: void f(a\nb)>").isOk = true ∧ byClass ["<A: void f(a\nb)>"] false = [] := by
  decide +kernel

end TaintFlow.Signature
