import TaintFlow.Fact

/-!
# Access paths and facts

What the operations on access paths and facts do by construction, whatever program they are about:
when a path starts at a local, which fields are left when its root is replaced, and what a change of
phase leaves alone.
-/

namespace TaintFlow

namespace AccessPath

variable {p : AccessPath} {v : Value}

/-! ## Roots -/

theorem startsAt_eq_true {l : Local} : p.startsAt l = true ↔ p.root = .local l := by
  unfold startsAt local?
  rw [beq_iff_eq]
  cases p.root with
  | «local» l' => simp
  | static g => simp

theorem isRootedAt_eq_true : p.isRootedAt v = true ↔ ∃ l, v = .local l ∧ p.root = .local l := by
  unfold isRootedAt
  cases v with
  | «local» l =>
    rw [startsAt_eq_true]
    constructor
    · intro hroot
      exact ⟨l, rfl, hroot⟩
    · rintro ⟨l', ⟨⟩, hroot⟩
      exact hroot
  | _ => simp

theorem passesThrough_local {l y : Local} (h : p.root = .local l) :
    p.passesThrough (.local y) = true ↔ l = y := by
  simp [passesThrough, startsAt, local?, h]

/-! ## Fields -/

/-- The location that a value denotes has one field at most. -/
theorem exists_fields_ofValue? (hv : ofValue? v = some p) :
    ∃ field : Option FieldRef, p.fields = field.toList := by
  unfold ofValue? at hv
  split at hv <;> cases hv
  · exact ⟨none, rfl⟩
  · exact ⟨none, rfl⟩
  · exact ⟨some _, rfl⟩
  · exact ⟨none, rfl⟩

/-- What is left of a path when its root is replaced is a part of it. -/
theorem remainder_suffix (p : AccessPath) (cut : Bool) : p.remainder cut <:+ p.fields := by
  unfold remainder
  cases p.root with
  | static f => exact List.suffix_refl _
  | «local» l =>
    cases cut with
    | true => exact List.tail_suffix _
    | false => exact List.suffix_refl _

/-- A path that is not too long after the move is not cut. -/
theorem moveTo?_of_fits {cut : Bool} {most : Nat} {root : Root} {front fields : List FieldRef}
    (hv : ofValue? v = some ⟨root, front⟩) (hfields : front ++ p.remainder cut = fields)
    (hfits : fields.length ≤ most) : p.moveTo? v cut most = some ⟨root, fields⟩ := by
  unfold moveTo? truncated
  rw [hv, Option.map_some, hfields, List.take_of_length_le hfits]

end AccessPath

namespace Fact

/-! ## Facts -/

/-- Moving to a bare local keeps every field, so that it is a move like any other. -/
theorem moveToValue?_local (f : Fact) (l : Local) (most : Nat) :
    f.moveToValue? (.local l) false most = some (f.moveToLocal l most) := by
  have hremainder : f.path.remainder false = f.path.fields := by
    unfold AccessPath.remainder
    split <;> rfl
  simp [moveToValue?, AccessPath.moveTo?, AccessPath.ofValue?, AccessPath.ofLocal, moveToLocal,
    AccessPath.moveToLocal, hremainder]

theorem path_activateAt (f : Fact) (s : StmtId) : (f.activateAt s).path = f.path := by
  unfold activateAt
  split <;> rfl

theorem isZero_activateAt (f : Fact) (s : StmtId) : (f.activateAt s).isZero = f.isZero := by
  unfold activateAt
  split <;> rfl

theorem thrown_activateAt (f : Fact) (s : StmtId) :
    (f.activateAt s).taint.thrown = f.taint.thrown := by
  unfold activateAt
  split <;> rfl

theorem mem_of_mem_distinct {fs : List Fact} {g : Fact} (h : g ∈ distinct fs) : g ∈ fs := by
  induction fs with
  | nil => exact h
  | cons f fs ih =>
    rcases List.mem_cons.mp h with rfl | h
    · exact List.mem_cons_self ..
    · exact List.mem_cons_of_mem _ (ih (List.mem_filter.mp h).1)

end Fact

end TaintFlow
