import TaintFlow.Proofs.Yaml.Decimal

/-!
# Block mappings of plain keys

`Reads` says that tokens are the tokens of a node: they are read as that node wherever they stand,
whatever follows them. A plain word is read so (`reads_plain`), and so is a block mapping whose keys
are plain and whose values are read so (`reads_ofFields`), which covers mappings within mappings.

A mapping of plain keys is a record: `Document.fields?_ofFields` gives its fields by name.
-/

namespace TaintFlow.Yaml

namespace Node

/-- A plain scalar without a tag. -/
def plain (text : String) : Node := .scalar { text := text }

/-- A mapping whose keys are plain. -/
def ofFields (fields : List (String × Node)) : Node :=
  .mapping (fields.map fun f => (plain f.1, f.2))

/-! ## Tokens -/

namespace Reader

/-- A node is read from just these tokens, with a step for each token at most, and without leaving
anchors behind. -/
structure Reads (ts : List Token) (node : Node) : Prop where
  isPresent : ∀ rest, endsBlockItem (ts ++ rest) = false
  isRead : ∀ {fuel : Nat} (rest : List Token), ts.length ≤ fuel →
    node? true fuel { tokens := ts ++ rest } = some (node, { tokens := rest })

theorem reads_plain (text : String) : Reads [.scalar text .plain] (plain text) := by
  refine ⟨fun rest => rfl, ?_⟩
  intro fuel rest hfuel
  rcases Nat.exists_eq_add_of_le' hfuel with ⟨k, rfl⟩
  rfl

/-- A value that is there is read, in one step more. -/
theorem Reads.nodeUnless? {ts : List Token} {node : Node} (h : Reads ts node) {fuel : Nat}
    (rest : List Token) (hfuel : ts.length < fuel) :
    nodeUnless? (endsBlockItem (ts ++ rest)) true fuel { tokens := ts ++ rest } =
      some (node, { tokens := rest }) := by
  rcases Nat.exists_eq_add_of_lt hfuel with ⟨k, rfl⟩
  rw [h.isPresent, Reader.nodeUnless?, if_neg (by decide)]
  exact h.isRead rest (Nat.le_add_right _ _)

/-- A plain key with the tokens of its value. -/
structure Entry where
  key : String
  value : List Token
  node : Node
  reads : Reads value node

namespace Entry

def ofWord (key text : String) : Entry := ⟨key, [.scalar text .plain], plain text, reads_plain text⟩

def tokens (e : Entry) : List Token := .key :: .scalar e.key .plain :: .value :: e.value

theorem length_tokens (e : Entry) : e.tokens.length = e.value.length + 3 := rfl

def field (e : Entry) : String × Node := (e.key, e.node)

end Entry

/-- An entry is read, and then the entries behind it. -/
theorem blockEntries?_entry (e : Entry) {fuel : Nat} {rest : List Token}
    {entries : List (Node × Node)} {r : Reader}
    (hfuel : e.value.length + 1 < fuel)
    (hrest : blockEntries? fuel { tokens := rest } = some (entries, r)) :
    blockEntries? (fuel + 1) { tokens := e.tokens ++ rest } =
      some ((plain e.key, e.node) :: entries, r) := by
  have hkey : nodeUnless? (endsBlockItem (.scalar e.key .plain :: .value :: (e.value ++ rest)))
      true fuel { tokens := .scalar e.key .plain :: .value :: (e.value ++ rest) } =
        some (plain e.key, { tokens := .value :: (e.value ++ rest) }) :=
    (reads_plain e.key).nodeUnless? (.value :: (e.value ++ rest)) (by simp; omega)
  have hvalue := e.reads.nodeUnless? rest (Nat.lt_of_succ_lt hfuel)
  -- key, value and the other entries are read with the same fuel, each where the one before it ends
  rw [blockEntries?]
  change (nodeUnless? (endsBlockItem (.scalar e.key .plain :: .value :: (e.value ++ rest)))
    true fuel { tokens := .scalar e.key .plain :: .value :: (e.value ++ rest) } >>= _) = _
  rw [hkey, Option.bind_eq_bind, Option.bind_some]
  change (nodeUnless? (endsBlockItem (e.value ++ rest)) true fuel
    { tokens := e.value ++ rest } >>= _) = _
  rw [hvalue, Option.bind_eq_bind, Option.bind_some]
  change (blockEntries? fuel { tokens := rest } >>= _) = _
  rw [hrest]
  rfl

theorem blockEntries?_entries (entries : List Entry) {fuel : Nat} (rest : List Token)
    (hfuel : (entries.flatMap Entry.tokens).length < fuel) :
    blockEntries? fuel { tokens := entries.flatMap Entry.tokens ++ .blockEnd :: rest } =
      some (entries.map fun e => (plain e.key, e.node), { tokens := rest }) := by
  induction entries generalizing fuel with
  | nil =>
    rcases Nat.exists_eq_add_of_lt hfuel with ⟨k, rfl⟩
    rfl
  | cons e entries ih =>
    simp only [List.flatMap_cons, List.length_append, Entry.length_tokens] at hfuel
    rcases Nat.exists_eq_add_of_lt hfuel with ⟨k, rfl⟩
    -- the three tokens in front of the value pay for the steps that lead to it
    rw [List.flatMap_cons, List.append_assoc]
    exact blockEntries?_entry e (by omega) (ih (by omega))

theorem reads_ofFields (entries : List Entry) :
    Reads (.blockStart :: (entries.flatMap Entry.tokens ++ [.blockEnd]))
      (ofFields (entries.map Entry.field)) := by
  refine ⟨fun rest => rfl, ?_⟩
  intro fuel rest hfuel
  rw [List.length_cons, List.length_append, List.length_singleton] at hfuel
  rcases Nat.exists_eq_add_of_lt (Nat.lt_of_succ_le hfuel) with ⟨k, rfl⟩
  have henough : (entries.flatMap Entry.tokens).length <
      (entries.flatMap Entry.tokens).length + 1 + k := by omega
  rw [List.cons_append, List.append_assoc, node?]
  change (blockEntries? _ { tokens := entries.flatMap Entry.tokens ++ .blockEnd :: rest } >>= _) = _
  rw [blockEntries?_entries entries rest henough, Option.bind_eq_bind, Option.bind_some]
  simp only [ofFields, List.map_map]
  rfl

/-- A text that starts with a block has no directives and no start marker. -/
theorem content?_blockStart (ts : List Token) :
    content? (.blockStart :: ts) = some (true, { tokens := .blockStart :: ts }) := by
  change ((guard ((Token.blockStart :: ts).length = (Token.blockStart :: ts).length) :
    Option Unit) >>= _) = _
  rw [guard_of_holds rfl]
  rfl

end Reader

/-! ## Plain values -/

theorem optional?_plain {α : Type} (read : Node → Option α) {text : String} (hne : text ≠ "")
    (hnull : isNull text = false) :
    optional? read (some (plain text)) = (read (plain text)).map some := by
  have hvoid : Scalar.isVoid { text := text } = false := by
    simp [Scalar.isVoid, hne, hnull]
  simp [plain, optional?, hvoid]

theorem optional?_repr {n most : Nat} (h : n ≤ most) :
    optional? (count? most) (some (plain n.repr)) = some (some n) := by
  have hne : n.repr ≠ "" := by
    intro heq
    have hempty : n.repr.toList = [] := by rw [heq]; rfl
    simp at hempty
  have hnull : isNull n.repr = false :=
    isNull_of_isDigit (List.all_eq_true.mpr fun c hc => isDigit_of_mem_repr hc)
  rw [optional?_plain _ hne hnull]
  change (unsigned? most n.repr).map some = _
  rw [unsigned?_repr h]
  rfl

end Node

/-! ## Documents -/

namespace Document

open Node.Reader (Reads)

theorem ofText?_of_reads {text : String} {ts : List Token} {root : Node}
    (htokens : Token.ofText? text = some (.blockStart :: ts))
    (hreads : Reads (.blockStart :: ts) root) :
    ofText? text = some { root := root } := by
  have hroot : Node.Reader.node? true (4 * (Token.blockStart :: ts).length + 3)
      { tokens := .blockStart :: ts } =
      some (root, { tokens := [] }) := by
    rw [← List.append_nil (Token.blockStart :: ts)]
    exact hreads.isRead [] (by simp; omega)
  unfold ofText?
  rw [htokens, Option.bind_eq_bind, Option.bind_some, Node.Reader.content?_blockStart,
    Option.bind_eq_bind, Option.bind_some]
  change (Node.Reader.node? true (4 * (Token.blockStart :: ts).length + 3)
    { tokens := .blockStart :: ts } >>= _) = _
  rw [hroot]
  rfl

theorem entries?_ofFields {d : Document} {fields : List (String × Node)}
    (hfollow : ∀ f ∈ fields, d.follow? f.2 = some f.2) :
    d.entries? (Node.ofFields fields) = some fields := by
  simp only [Node.ofFields, entries?]
  induction fields with
  | nil => rfl
  | cons f fields ih =>
    rw [List.forall_mem_cons] at hfollow
    rw [List.map_cons, List.mapM_cons, ih hfollow.2]
    change (d.follow? f.2 >>= _) >>= _ = _
    rw [hfollow.1]
    rfl

theorem fields?_ofFields {d : Document} {known : List String} {fields : List (String × Node)}
    (hfollow : ∀ f ∈ fields, d.follow? f.2 = some f.2) (hnodup : (fields.map (·.1)).Nodup)
    (hknown : ∀ k ∈ fields.map (·.1), k ∈ known) :
    d.fields? known (Node.ofFields fields) = some fun k => fields.lookup k := by
  unfold fields?
  rw [entries?_ofFields hfollow, Option.bind_eq_bind, Option.bind_some]
  dsimp only
  rw [guard_of_holds ⟨hnodup, hknown⟩]
  rfl

end Document

end TaintFlow.Yaml
