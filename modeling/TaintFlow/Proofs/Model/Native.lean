import TaintFlow.Model.Native
import TaintFlow.Proofs.AccessPath

/-!
# What native calls write

The conservative model of native calls writes to nothing but the arguments and the target of a call.
It reads arguments by their positions, and only where they are.
-/

namespace TaintFlow.NativeModel

variable {stmt : Stmt} {f : Fact} {args : List Value}

/-- What the conservative model says to be written are arguments. -/
theorem mem_written {v : Value} (h : v ∈ written stmt f args) : v ∈ args := by
  unfold written at h
  split at h
  · -- a copied array: the destination is the third argument, if there are so many
    split at h
    · split at h
      · rw [List.mem_singleton.mp h]
        simp
      · cases h
    · cases h
  · exact (List.mem_filter.mp h).1

theorem mem_conservative {g : Fact} (h : g ∈ conservative stmt f args) :
    ∃ v path, (v ∈ args ∨ stmt.target? = some v) ∧ AccessPath.ofValue? v = some path ∧
      g = (f.moveTo path).visit stmt.id := by
  obtain ⟨path, hpath, rfl⟩ := List.mem_map.mp (Fact.mem_of_mem_distinct h)
  obtain ⟨v, hv, hofValue⟩ := List.mem_filterMap.mp (List.mem_filter.mp hpath).1
  refine ⟨v, path, ?_, hofValue, rfl⟩
  rcases List.mem_append.mp hv with hwritten | htarget
  · exact Or.inl (mem_written hwritten)
  · exact Or.inr (Option.mem_toList.mp htarget)

end TaintFlow.NativeModel
