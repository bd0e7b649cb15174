import Mathlib.Data.Set.Card
import TaintFlow.Model.Library
import TaintFlow.Proofs.Program.Realization
import TaintFlow.Proofs.Signature.Printing

/-!
# Lists of methods as sets of signatures

A list of methods does not keep signatures. It keeps the class and the printed sub-signature of
each, and two methods with the same two texts would be one method to it. Signatures that were read
never have both texts in common (`keyOf_injOn`), so that a list stands for the set of the signatures
that its texts are read as: it supports these and no others, and it has as many entries as there are
of them.
-/

namespace TaintFlow.ListedMethods

open Signature

/-- Some text of the list is read as `m`. -/
def Lists (texts : List String) (m : Signature) : Prop := ∃ text ∈ texts, require text = .ok m

/-- Class and sub-signature tell apart the signatures that can be read. -/
theorem keyOf_injOn : Set.InjOn keyOf {m | ∃ text, require text = .ok m} := by
  rintro m ⟨text, h⟩ m' ⟨text', h'⟩ hkey
  unfold keyOf at hkey
  rw [Prod.mk.injEq] at hkey
  exact eq_of_text_eq h h' (text_eq_of_parts hkey.1 hkey.2)

/-! ## Lists of signatures -/

section

variable {methods : List Signature}

theorem mem_keys_ofSignatures {key : String × String} :
    key ∈ (ofSignatures methods).keys ↔ ∃ m ∈ methods, keyOf m = key := by
  simp [ofSignatures]

theorem supports_ofSignatures {m : Signature} :
    (ofSignatures methods).supports m = true ↔ ∃ m' ∈ methods, keyOf m' = keyOf m := by
  unfold supports
  rw [List.contains_iff_mem, mem_keys_ofSignatures]

/-- A list has as many entries as its signatures have keys. -/
theorem size_ofSignatures : (ofSignatures methods).size = (keyOf '' {m | m ∈ methods}).ncard := by
  have hkeys : keyOf '' {m | m ∈ methods} = ↑(ofSignatures methods).keys.toFinset := by
    ext key
    simp [mem_keys_ofSignatures]
  have hnodup : (ofSignatures methods).keys.Nodup := Builder.nodup_eraseDups _
  rw [hkeys, Set.ncard_coe_finset, List.toFinset_card_of_nodup hnodup]
  rfl

end

/-! ## Lists of texts -/

section

variable {texts : List String} {w : ListedMethods}

theorem ofTexts_eq_error_iff {e : Error} :
    ofTexts texts = .error e ↔ texts.mapM require = .error e := by
  unfold ofTexts
  rw [bind_eq_error_iff]
  simp [pure, Except.pure]

/-- A list is made of the signatures that its texts are read as. -/
theorem exists_of_ofTexts (h : ofTexts texts = .ok w) :
    ∃ methods, (∀ m, m ∈ methods ↔ Lists texts m) ∧ ofSignatures methods = w := by
  rcases exists_of_bind_eq_ok h with ⟨methods, hmethods, hw⟩
  exact ⟨methods, fun _ => mem_of_mapM hmethods, Except.ok.inj hw⟩

theorem exists_ofTexts_iff :
    (∃ w, ofTexts texts = .ok w) ↔ ∀ text ∈ texts, ∃ m, require text = .ok m := by
  rw [← exists_mapM_eq_ok_iff]
  constructor
  · rintro ⟨w, h⟩
    rcases exists_of_bind_eq_ok h with ⟨methods, hmethods, -⟩
    exact ⟨methods, hmethods⟩
  · rintro ⟨methods, hmethods⟩
    refine ⟨ofSignatures methods, ?_⟩
    unfold ofTexts
    rw [hmethods]
    rfl

theorem supports_iff_key (h : ofTexts texts = .ok w) {m : Signature} :
    w.supports m = true ↔ ∃ m', Lists texts m' ∧ keyOf m' = keyOf m := by
  rcases exists_of_ofTexts h with ⟨methods, hmethods, rfl⟩
  rw [supports_ofSignatures]
  simp only [hmethods]

theorem supports_iff_lists (h : ofTexts texts = .ok w) {text : String} {m : Signature}
    (hm : require text = .ok m) : w.supports m = true ↔ Lists texts m := by
  rw [supports_iff_key h]
  constructor
  · rintro ⟨m', hlisted, hkey⟩
    rcases hlisted with ⟨text', hmem, hm'⟩
    rw [← keyOf_injOn ⟨text', hm'⟩ ⟨text, hm⟩ hkey]
    exact ⟨text', hmem, hm'⟩
  · intro hlisted
    exact ⟨m, hlisted, rfl⟩

theorem size_eq_ncard (h : ofTexts texts = .ok w) : w.size = {m | Lists texts m}.ncard := by
  rcases exists_of_ofTexts h with ⟨methods, hmethods, rfl⟩
  have hlisted : {m | m ∈ methods} = {m | Lists texts m} := Set.ext hmethods
  rw [size_ofSignatures, hlisted, Set.InjOn.ncard_image]
  apply keyOf_injOn.mono
  rintro m ⟨text, -, hm⟩
  exact ⟨text, hm⟩

end

/-- A list of texts stands for the set of the signatures that they are read as. It is refused, with
the error of the first text that cannot be read, if there is one. Else it supports the signatures of
the set, has as many entries, and is the same to its users as any other list of that set. -/
theorem ofTexts_stands_for_set (texts : List String) :
    (∀ e, ofTexts texts = .error e ↔ ∃ front text back, texts = front ++ text :: back ∧
      (∀ t ∈ front, ∃ m, require t = .ok m) ∧ require text = .error e) ∧
    ((∃ w, ofTexts texts = .ok w) ↔ ∀ text ∈ texts, ∃ m, require text = .ok m) ∧
    ∀ w, ofTexts texts = .ok w →
      (∀ text m, require text = .ok m → (w.supports m = true ↔ Lists texts m)) ∧
      w.size = {m | Lists texts m}.ncard ∧
      ∀ texts' w', ofTexts texts' = .ok w' → (∀ m, Lists texts' m ↔ Lists texts m) →
        w'.size = w.size ∧ ∀ m, w'.supports m = w.supports m := by
  refine ⟨?_, exists_ofTexts_iff, ?_⟩
  · intro e
    rw [ofTexts_eq_error_iff, mapM_eq_error_iff]
  · intro w h
    refine ⟨fun text m hm => supports_iff_lists h hm, size_eq_ncard h, ?_⟩
    intro texts' w' h' hsame
    constructor
    · rw [size_eq_ncard h', size_eq_ncard h]
      simp only [hsame]
    · intro m
      rw [Bool.eq_iff_iff, supports_iff_key h', supports_iff_key h]
      simp only [hsame]

/-- Three texts in two spellings of one method and one of another. -/
theorem ofTexts_stands_for_set_respelled :
    ∃ w, ofTexts ["<A: void f(int, long)>", "<A: void g()>", " <A: void  f(int,,long)>"] = .ok w ∧
      w.size = 2 ∧ w.supports ⟨"A", "void", "f", ["int", "long"]⟩ = true ∧
      {m | Lists ["<A: void f(int, long)>", "<A: void g()>", " <A: void  f(int,,long)>"] m}.ncard =
        2 := by
  have hrun :
      (ofTexts ["<A: void f(int, long)>", "<A: void g()>",
        " <A: void  f(int,,long)>"]).toOption.any
      (fun w => w.size == 2 && w.supports ⟨"A", "void", "f", ["int", "long"]⟩) = true := by
    decide +kernel
  rcases exists_of_any_toOption hrun with ⟨w, hw, hp⟩
  simp only [Bool.and_eq_true, beq_iff_eq] at hp
  rcases (ofTexts_stands_for_set _).2.2 w hw with ⟨-, hsize, -⟩
  exact ⟨w, hw, hp.1, hp.2, hsize.symm.trans hp.1⟩

/-- Only a signature that cannot be read may share its texts with another. -/
example : (ofSignatures [⟨"A", "void", "f", ["int", "long"]⟩]).supports
    ⟨"A", "void", "f", ["int,long"]⟩ =
    true := by
  decide +kernel

end TaintFlow.ListedMethods
