/-!
# Grouping by key

A `Grouping` keeps entries in groups, one for each key that has any. Within a group the entries
stand in the order in which they were added; the order of the groups has no meaning.
-/

namespace TaintFlow

structure Grouping (κ β : Type) where
  groups : List (κ × List β)
  keys_nodup : (groups.map (·.1)).Nodup
  groups_ne_nil : ∀ g ∈ groups, g.2 ≠ []

namespace Grouping

variable {κ β : Type}

theorem nil_ne_nil : ∀ g ∈ ([] : List (κ × List β)), g.2 ≠ [] := by
  simp

def empty : Grouping κ β := ⟨[], List.nodup_nil, nil_ne_nil⟩

def keys (g : Grouping κ β) : List κ := g.groups.map (·.1)

/-- All entries, group by group. -/
def entries (g : Grouping κ β) : List β := g.groups.flatMap (·.2)

variable [DecidableEq κ]

/-- The entries with a key. -/
def under (g : Grouping κ β) (key : κ) : List β := (g.groups.lookup key).getD []

/-- Append `entry` to the group of `key`; a new group goes to the end. -/
def file (key : κ) (entry : β) : List (κ × List β) → List (κ × List β)
  | [] => [(key, [entry])]
  | (k, es) :: groups =>
    if k = key then (k, es ++ [entry]) :: groups else (k, es) :: file key entry groups

theorem mem_keys_file {key k : κ} {entry : β} {groups : List (κ × List β)} :
    k ∈ (file key entry groups).map (·.1) ↔ k = key ∨ k ∈ groups.map (·.1) := by
  fun_induction file key entry groups with
  | case1 => simp
  | case2 es groups => simp
  | case3 k' es groups hk ih =>
    rw [List.map_cons, List.mem_cons, ih, List.map_cons, List.mem_cons]
    exact or_left_comm

theorem nodup_file (g : Grouping κ β) (key : κ) (entry : β) :
    ((file key entry g.groups).map (·.1)).Nodup := by
  have h := g.keys_nodup
  revert h
  fun_induction file key entry g.groups with
  | case1 => simp
  | case2 es groups => simp
  | case3 k es groups hk ih =>
    simp only [List.map_cons, List.nodup_cons, mem_keys_file]
    rintro ⟨hmem, hnodup⟩
    exact ⟨not_or.mpr ⟨hk, hmem⟩, ih hnodup⟩

theorem ne_nil_file (g : Grouping κ β) (key : κ) (entry : β) :
    ∀ h ∈ file key entry g.groups, h.2 ≠ [] := by
  have h := g.groups_ne_nil
  revert h
  fun_induction file key entry g.groups with
  | case1 => simp
  | case2 es groups => simp
  | case3 k es groups hk ih =>
    simp only [List.forall_mem_cons]
    exact And.imp_right ih

def add (g : Grouping κ β) (key : κ) (entry : β) : Grouping κ β :=
  ⟨file key entry g.groups, nodup_file g key entry, ne_nil_file g key entry⟩

/-- Entries, given with their keys, one after the other. -/
def ofList (entries : List (κ × β)) : Grouping κ β :=
  entries.foldl (fun g e => g.add e.1 e.2) empty

end Grouping

end TaintFlow
