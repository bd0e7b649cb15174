import Mathlib.Data.List.Induction
import Mathlib.Data.List.Perm.Basic
import TaintFlow.Grouping

/-!
# What a grouping holds

A grouping is known by what it has under each key (`mem_groups_iff`), whatever the order of its
groups (`under_of_perm`). Adding an entry changes what is under its key and nothing else
(`under_add`), so that entries which are added one after the other are all filed (`files_ofList`).
-/

namespace TaintFlow.Grouping

variable {κ β : Type} [DecidableEq κ]

/-- The entries, given with their keys, are filed in `groups`: there is one group for each key that
occurs, and it has the entries with that key in the order given. -/
structure Files (groups : List (κ × List β)) (entries : List (κ × β)) : Prop where
  keys_nodup : (groups.map (·.1)).Nodup
  mem_iff : ∀ key es, (key, es) ∈ groups ↔ es ≠ [] ∧ es = (entries.filter (·.1 = key)).map (·.2)
  whole : (groups.flatMap (·.2)).Perm (entries.map (·.2))

/-! ## Groups and keys -/

theorem lookup_eq_some_iff_mem {groups : List (κ × List β)} (h : (groups.map (·.1)).Nodup) {key : κ}
    {es : List β} : groups.lookup key = some es ↔ (key, es) ∈ groups := by
  induction groups with
  | nil => simp
  | cons group groups ih =>
    obtain ⟨k, es'⟩ := group
    rw [List.map_cons, List.nodup_cons] at h
    rw [List.lookup_cons, List.mem_cons, Prod.mk.injEq]
    by_cases hkey : key = k
    · subst hkey
      have hout : (key, es) ∉ groups := fun hmem => h.1 (List.mem_map.mpr ⟨_, hmem, rfl⟩)
      simp [hout, eq_comm]
    · simp [beq_false_of_ne hkey, ih h.2, hkey]

variable {g g' : Grouping κ β}

theorem mem_groups_iff {key : κ} {es : List β} :
    (key, es) ∈ g.groups ↔ es ≠ [] ∧ es = g.under key := by
  rw [← lookup_eq_some_iff_mem g.keys_nodup]
  unfold under
  constructor
  · intro h
    rw [h]
    exact ⟨g.groups_ne_nil _ ((lookup_eq_some_iff_mem g.keys_nodup).mp h), rfl⟩
  · rintro ⟨hne, hes⟩
    cases hlookup : g.groups.lookup key with
    | none =>
      rw [hlookup] at hes
      exact absurd hes hne
    | some es' =>
      rw [hlookup] at hes
      rw [hes]
      rfl

theorem mem_keys_iff {key : κ} : key ∈ g.keys ↔ g.under key ≠ [] := by
  unfold keys
  rw [List.mem_map]
  constructor
  · rintro ⟨⟨key, es⟩, hmem, rfl⟩
    rcases mem_groups_iff.mp hmem with ⟨hne, rfl⟩
    exact hne
  · intro hne
    exact ⟨(key, g.under key), mem_groups_iff.mpr ⟨hne, rfl⟩, rfl⟩

theorem under_of_perm (h : g.groups.Perm g'.groups) (key : κ) : g.under key = g'.under key := by
  have hlookup : g.groups.lookup key = g'.groups.lookup key := by
    ext es
    rw [lookup_eq_some_iff_mem g.keys_nodup, lookup_eq_some_iff_mem g'.keys_nodup, h.mem_iff]
  unfold under
  rw [hlookup]

/-- Entries that can only have one key are found in one group. -/
theorem filter_flatMap_eq {groups : List (κ × List β)} (hnodup : (groups.map (·.1)).Nodup)
    {p : β → Bool} {key : κ} (h : ∀ group ∈ groups, group.1 ≠ key → group.2.filter p = []) :
    (groups.flatMap (·.2)).filter p = ((groups.lookup key).getD []).filter p := by
  induction groups with
  | nil => rfl
  | cons group groups ih =>
    obtain ⟨k, es⟩ := group
    rw [List.map_cons, List.nodup_cons] at hnodup
    rw [List.forall_mem_cons] at h
    rw [List.flatMap_cons, List.filter_append, List.lookup_cons]
    -- in its own group, and then in no other, or in one of the later groups
    by_cases hkey : key = k
    · subst hkey
      have hrest : (groups.flatMap (·.2)).filter p = [] := by
        rw [List.filter_flatMap, List.flatMap_eq_nil_iff]
        intro group hmem
        apply h.2 group hmem
        rintro rfl
        exact hnodup.1 (List.mem_map.mpr ⟨group, hmem, rfl⟩)
      simp [hrest]
    · rw [h.1 (Ne.symm hkey), beq_false_of_ne hkey]
      exact ih hnodup.2 h.2

theorem filter_entries {p : β → Bool} {key : κ}
    (h : ∀ k, k ≠ key → (g.under k).filter p = []) :
    g.entries.filter p = (g.under key).filter p := by
  apply filter_flatMap_eq g.keys_nodup
  rintro ⟨k, es⟩ hmem hk
  rcases mem_groups_iff.mp hmem with ⟨-, rfl⟩
  exact h k hk

/-! ## Adding entries -/

theorem lookup_file {key k : κ} {entry : β} {groups : List (κ × List β)} :
    ((file key entry groups).lookup k).getD [] =
      (groups.lookup k).getD [] ++ if k = key then [entry] else [] := by
  fun_induction file key entry groups with
  | case1 =>
    by_cases hk : k = key
    · simp [hk]
    · simp [List.lookup_cons, beq_false_of_ne hk, hk]
  | case2 es groups =>
    by_cases hk : k = key
    · simp [hk]
    · simp [List.lookup_cons, beq_false_of_ne hk, hk]
  | case3 k' es groups hk' ih =>
    by_cases hk : k = k'
    · subst hk
      simp [hk']
    · simp only [List.lookup_cons, beq_false_of_ne hk]
      exact ih

theorem under_add {key k : κ} {entry : β} :
    (g.add key entry).under k = g.under k ++ if k = key then [entry] else [] :=
  lookup_file

theorem flatMap_file_perm {key : κ} {entry : β} {groups : List (κ × List β)} :
    ((file key entry groups).flatMap (·.2)).Perm (groups.flatMap (·.2) ++ [entry]) := by
  fun_induction file key entry groups with
  | case1 => simp
  | case2 es groups =>
    simp only [List.flatMap_cons, List.append_assoc]
    exact List.perm_append_comm.append_left es
  | case3 k es groups hk ih =>
    simp only [List.flatMap_cons, List.append_assoc]
    exact ih.append_left es

theorem ofList_concat {entries : List (κ × β)} {e : κ × β} :
    ofList (entries ++ [e]) = (ofList entries).add e.1 e.2 := by
  unfold ofList
  rw [List.foldl_concat]

theorem under_ofList (entries : List (κ × β)) (key : κ) :
    (ofList entries).under key = (entries.filter (·.1 = key)).map (·.2) := by
  induction entries using List.reverseRecOn with
  | nil => rfl
  | append_singleton entries e ih =>
    rw [ofList_concat, under_add, ih, List.filter_append, List.map_append]
    by_cases hkey : e.1 = key
    · simp [hkey]
    · simp [hkey, Ne.symm hkey]

theorem entries_ofList_perm (entries : List (κ × β)) :
    (ofList entries).entries.Perm (entries.map (·.2)) := by
  induction entries using List.reverseRecOn with
  | nil => exact List.Perm.nil
  | append_singleton entries e ih =>
    rw [ofList_concat, List.map_append]
    exact flatMap_file_perm.trans (ih.append_right _)

theorem files_ofList (entries : List (κ × β)) : Files (ofList entries).groups entries where
  keys_nodup := (ofList entries).keys_nodup
  mem_iff := by
    intro key es
    rw [mem_groups_iff, under_ofList]
  whole := entries_ofList_perm entries

/-- The keys of the groups are the keys of the entries. -/
theorem Files.mem_keys_iff {groups : List (κ × List β)} {entries : List (κ × β)}
    (h : Files groups entries) {key : κ} : key ∈ groups.map (·.1) ↔ key ∈ entries.map (·.1) := by
  rw [List.mem_map, List.mem_map]
  constructor
  · rintro ⟨⟨key, es⟩, hmem, rfl⟩
    rcases (h.mem_iff key es).mp hmem with ⟨hne, rfl⟩
    rcases List.exists_mem_of_ne_nil _ hne with ⟨b, hb⟩
    rcases List.mem_map.mp hb with ⟨e, he, -⟩
    rcases List.mem_filter.mp he with ⟨he, hkey⟩
    exact ⟨e, he, of_decide_eq_true hkey⟩
  · rintro ⟨e, he, rfl⟩
    refine ⟨(e.1, _), (h.mem_iff e.1 _).mpr ⟨?_, rfl⟩, rfl⟩
    apply List.ne_nil_of_mem
    exact List.mem_map_of_mem (List.mem_filter.mpr ⟨he, decide_eq_true rfl⟩)

end TaintFlow.Grouping
