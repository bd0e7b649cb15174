import Mathlib.Data.Option.Basic
import TaintFlow.Yaml.Typed

/-!
# Decimal numbers

A number is read back from its decimal text, up to the largest number that is admitted
(`unsigned?_repr`). The reader takes a leading zero for the start of another notation, so it matters
that no text but that of zero begins with one.
-/

namespace TaintFlow.Yaml

theorem guard_of_holds {p : Prop} [Decidable p] (h : p) : (guard p : Option Unit) = some () :=
  if_pos h

theorem hexValue?_of_isDigit {c : Char} (h : c.isDigit = true) :
    hexValue? c = some (c.toNat - '0'.toNat) := by
  unfold hexValue?
  rw [if_pos h]

theorem digit_lt_ten {c : Char} (h : c.isDigit = true) : c.toNat - '0'.toNat < 10 := by
  have hle : c.toNat ≤ 57 := by
    simp only [Char.isDigit, Bool.and_eq_true, decide_eq_true_eq] at h
    exact h.2
  have hzero : '0'.toNat = 48 := rfl
  omega

theorem digits?_eq_ofDigitChars {cs : List Char} (h : ∀ c ∈ cs, c.isDigit = true) (value : Nat) :
    digits? 10 value cs = some (Nat.ofDigitChars 10 cs value) := by
  induction cs generalizing value with
  | nil => rfl
  | cons c cs ih =>
    rw [List.forall_mem_cons] at h
    have hstep : digits? 10 value (c :: cs) =
        digits? 10 (value * 10 + (c.toNat - '0'.toNat)) cs := by
      rw [digits?, hexValue?_of_isDigit h.1, Option.bind_eq_bind, Option.bind_some,
        guard_of_holds (digit_lt_ten h.1)]
      rfl
    rw [hstep, ih h.2, Nat.ofDigitChars_cons, Nat.mul_comm]

theorem isDigit_of_mem_repr {n : Nat} {c : Char} (h : c ∈ n.repr.toList) : c.isDigit = true := by
  rw [Nat.toList_repr] at h
  exact Nat.isDigit_of_mem_toDigits (by decide) (by decide) h

/-- A number is not a word for null. -/
theorem isNull_of_isDigit {text : String} (h : text.toList.all Char.isDigit = true) :
    isNull text = false := by
  unfold isNull
  split
  · exact absurd h (by decide)
  · exact absurd h (by decide)
  · exact absurd h (by decide)
  · exact absurd h (by decide)
  · rfl

theorem number?_repr (n : Nat) : number? 10 n.repr.toList = some n := by
  have hdigits := digits?_eq_ofDigitChars (fun c => isDigit_of_mem_repr (n := n)) 0
  rw [Nat.toList_repr] at *
  unfold number?
  rw [if_neg, hdigits, Nat.ofDigitChars_ten_toDigits]
  simp

/-- Only the text of zero starts with a zero. -/
theorem eq_zero_of_head?_toDigits {n : Nat} (h : (Nat.toDigits 10 n).head? = some '0') : n = 0 := by
  induction n using Nat.strongRecOn with
  | ind n ih =>
    rw [Nat.toDigits_eq_if (by decide)] at h
    split at h
    · simpa using h
    · next hge =>
      -- the first digit is that of the quotient, which is not zero
      rw [List.head?_append, Option.or_of_isSome (by simp)] at h
      have hquotient : n / 10 = 0 := ih (n / 10) (Nat.div_lt_self (by omega) (by decide)) h
      omega

theorem repr_ne_zero_cons (n : Nat) (d : Char) (cs : List Char) :
    n.repr.toList ≠ '0' :: d :: cs := by
  intro h
  rw [Nat.toList_repr] at h
  have hn : n = 0 := eq_zero_of_head?_toDigits (by rw [h]; rfl)
  rw [hn, Nat.toDigits_zero] at h
  cases h

theorem unsigned?_repr {n most : Nat} (h : n ≤ most) : unsigned? most n.repr = some n := by
  unfold unsigned?
  split
  · next cs hplus =>
    have hdigit : '+'.isDigit = true := isDigit_of_mem_repr (hplus ▸ List.mem_cons_self ..)
    exact absurd hdigit (by decide)
  · dsimp only
    split
    · next hcs => exact absurd hcs (repr_ne_zero_cons n _ _)
    · next hcs => exact absurd hcs (repr_ne_zero_cons n _ _)
    · next hcs => exact absurd hcs (repr_ne_zero_cons n _ _)
    · next hcs => exact absurd hcs (repr_ne_zero_cons n _ _)
    · rw [number?_repr, Option.bind_eq_bind, Option.bind_some, guard_of_holds h]
      rfl

end TaintFlow.Yaml
