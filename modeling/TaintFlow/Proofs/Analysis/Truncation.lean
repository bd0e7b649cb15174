import TaintFlow.Proofs.Analysis.Callless
import TaintFlow.Proofs.Analysis.Simulation

/-!
# Shorter chains

A shorter bound on the length of access paths makes the analysis coarser, and one expects it to find
more. It does as long as no statement looks past the point where chains are cut: then every edge of
a run with long chains is there with its chains cut in a run with short ones, and so is every
finding.

Where a statement takes the first field off a chain, a chain that was cut can come out as a bare
local. Alias candidates do not travel on bare locals, so the analysis with shorter chains may lose
track of an object (`rereading`). A native call that stores to a field does not tell a cut chain
from the field itself (`rethrown`). And which exits are let out into every caller depends on the
schedule, which depends on the number of edges.
-/

namespace TaintFlow

open Tabulation Correspondence

/-! ## Cutting chains -/

/-- The path cut after `n` fields. -/
def AccessPath.upTo (n : Nat) (p : AccessPath) : AccessPath := .truncated p.root p.fields n

def Taint.upTo (n : Nat) (t : Taint) : Taint := { t with path := t.path.upTo n }

/-- The edge with the chains of its context and of its fact cut after `n` fields. -/
def Tabulation.Edge.upTo (n : Nat) (e : Edge Fact Taint) : Edge Fact Taint where
  context := e.context.upTo n
  node := e.node
  fact := { e.fact with taint := e.fact.taint.upTo n }

/-- The same analysis with another bound on the length of access paths. -/
def Setup.withLength (x : Setup) (n : Nat) : Setup :=
  { x with settings := { x.settings with accessPathLength := n } }

theorem AccessPath.upTo_of_length_le {n : Nat} {p : AccessPath} (h : p.fields.length ≤ n) :
    p.upTo n = p := by
  unfold upTo truncated
  rw [List.take_of_length_le h]

/-- Paths correspond to themselves cut after `n` fields. -/
def truncation (n : Nat) : Correspondence where
  stmt := Eq
  path p q := q = p.upTo n

theorem lawful_truncation {m n : Nat} (hm : 1 ≤ m) (hmn : m ≤ n) : (truncation m).Lawful n m where
  unique := by
    rintro s _ t _ rfl rfl
    rfl
  synthetic := rfl
  alike := by
    rintro p _ rfl
    refine ⟨rfl, ?_⟩
    -- with room for one field, cutting keeps whether there is one
    obtain ⟨k, rfl⟩ : ∃ k, m = k + 1 := ⟨m - 1, by omega⟩
    unfold AccessPath.upTo AccessPath.truncated
    cases p.fields <;> rfl
  functional := by
    rintro p _ _ rfl rfl
    rfl
  short := by
    intro p hp
    exact (AccessPath.upTo_of_length_le (by omega)).symm
  moved := by
    rintro p _ rfl root f
    change AccessPath.mk root ((f.toList ++ p.fields.take m).take m) =
      ⟨root, ((f.toList ++ p.fields).take n).take m⟩
    rw [List.take_take, min_eq_left hmn, List.take_append, List.take_append, List.take_take,
      min_eq_left (Nat.sub_le _ _)]
  swapped := by
    rintro p _ rfl root f
    change AccessPath.mk root ((f :: (p.fields.take m).tail).take m) =
      ⟨root, ((f :: p.fields.tail).take n).take m⟩
    rw [List.take_take, min_eq_left hmn]
    -- the first field is always kept, so that swapping it and cutting commute
    obtain ⟨k, rfl⟩ : ∃ k, m = k + 1 := ⟨m - 1, by omega⟩
    cases p.fields with
    | nil => rfl
    | cons field rest =>
      simp only [List.take_succ_cons, List.tail_cons, List.take_take, min_self]

theorem eq_of_rel {a b : Option StmtId} (h : Option.Rel Eq a b) : b = a := by
  cases h with
  | none => rfl
  | some hs => rw [hs]

theorem taints_truncation {n : Nat} {t u : Taint} : (truncation n).Taints t u ↔ u = t.upTo n := by
  constructor
  · obtain ⟨path, source, origin, active, unit, level, thrown⟩ := u
    rintro ⟨hpath, hsource, horigin, hactive, hunit, hlevel, hthrown⟩
    dsimp only at *
    subst horigin hactive hthrown
    rw [hpath, ← hsource, eq_of_rel hunit, eq_of_rel hlevel]
    rfl
  · rintro rfl
    have hrel : ∀ a : Option StmtId, Option.Rel Eq a a := by
      intro a
      cases a with
      | none => exact .none
      | some s => exact .some rfl
    exact ⟨rfl, rfl, rfl, rfl, hrel _, hrel _, rfl⟩

/-! ## Chains that have to be short -/

/-- Whether the statement passes the object to a native method and stores to the first field of the
chain. -/
def Setup.storesNatively (x : Setup) (a : Stmt) (p : AccessPath) : Bool :=
  a.call?.any fun invocation =>
    x.callsNative invocation && invocation.args.any p.isRootedAt
      && (invocation.args ++ a.target?.toList).any fun v => v.isField && p.passesThrough v

/-- Whether the statement, applied to a fact with this chain, takes the first field off or stores to
it natively. -/
def Setup.consumes (x : Setup) (d : Direction) (s : StmtId) (p : AccessPath) : Bool :=
  (x.program.stmt? s).any fun a =>
    a.action.shortens p d || d == .forward && x.storesNatively a p

section

variable {x : Setup} {m n : Nat} (hmn : m ≤ n)

include hmn

theorem fits_truncation (hm : 1 ≤ m) (hnative : x.native = .conservative) {d : Direction}
    {s : StmtId} {p q : AccessPath} (hq : (truncation m).path p q)
    (hkept : m < p.fields.length → x.consumes d s p = false) :
    (x.withLength n).Fits (truncation m) (x.withLength m) d s p q where
  shortened := by
    -- what shortens a chain is met by uncut paths only
    intro a ha hshortens root
    have hlength : p.fields.length ≤ m := by
      apply not_lt.mp
      intro hlong
      have hnone := hkept hlong
      unfold Setup.consumes at hnone
      change (x.program.stmt? s) = some a at ha
      rw [ha, Option.any_some, hshortens] at hnone
      cases hnone
    have hsame : q = p := hq.trans (AccessPath.upTo_of_length_le hlength)
    subst hsame
    change AccessPath.mk root (q.fields.tail.take m) = ⟨root, (q.fields.tail.take n).take m⟩
    rw [List.take_take, min_eq_left hmn]
  native := by
    rintro a b invocation f g rfl hcall hab hdeclared hrooted rfl hfg
    change (truncation m).Covers (x.native a f _) (x.native b g _)
    rw [hnative]
    refine NativeModel.covers_conservative (lawful_truncation hm hmn) hab hfg ?_
    intro v place hv hplace hnew hsame
    have hcut : g.path = f.path.upTo m := hfg.path
    -- the place is the first field of a chain that was cut right after it
    by_cases hlong : m < f.path.fields.length
    · have hfields : place.fields = f.path.fields.take m := by
        rw [hsame, hcut]
        rfl
      have hroot : place.root = f.path.root := by
        rw [hsame, hcut]
        rfl
      obtain ⟨k, rfl⟩ : ∃ k, m = k + 1 := ⟨m - 1, by omega⟩
      cases hchain : f.path.fields with
      | nil =>
        rw [hchain] at hlong
        cases hlong
      -- a place has one field at most, so it must be the first one, and the call stores to it
      | cons field rest =>
        rw [hchain, List.take_succ_cons] at hfields
        unfold AccessPath.ofValue? at hplace
        split at hplace <;> cases hplace
        · cases hfields
        · cases hfields
        · next base field' =>
          obtain ⟨rfl, -⟩ := List.cons.inj hfields
          have hpasses : f.path.passesThrough (.field base field') = true := by
            simp only [AccessPath.passesThrough, AccessPath.isInstanceField, AccessPath.startsAt,
              AccessPath.local?, AccessPath.firstField?, ← hroot, hchain]
            simp
          have hstores : x.storesNatively a f.path = true := by
            unfold Setup.storesNatively
            rw [hcall.calls, Option.any_some, hrooted, show x.callsNative invocation = true from
              hdeclared]
            refine List.any_eq_true.mpr ⟨.field base field', ?_, hpasses⟩
            exact List.mem_append.mpr (hv.imp_right Option.mem_toList.mpr)
          have hnone := hkept hlong
          unfold Setup.consumes at hnone
          rw [show x.program.stmt? s = some a from hcall.known, Option.any_some, hstores] at hnone
          simp at hnone
        · cases hfields
    · rw [hcut, AccessPath.upTo_of_length_le (not_lt.mp hlong)] at hsame
      exact hnew hsame

theorem twin_truncation (hm : 1 ≤ m) (hp : x.program.Built) (hlibrary : x.library = none) :
    (x.withLength n).Twin (truncation m) (x.withLength m) := by
  -- cutting chains changes nothing that a program says
  have hsame : ∀ {a b : Stmt}, (truncation m).Stmts a b → b = a := by
    rintro ⟨id, method, action⟩ ⟨id', method', action'⟩ ⟨hid, hmethod, haction⟩
    cases hid
    cases hmethod
    cases haction
    rfl
  have hheaded : ∀ method : Option Method, Option.Rel Method.Headed method method := by
    intro method
    cases method with
    | none => exact .none
    | some method => exact .some ⟨rfl, rfl, rfl, rfl, rfl, rfl⟩
  refine ⟨lawful_truncation hm hmn, ?_, hp.id_eq, fun _ => hheaded _, ?_, rfl, fun _ _ hl => hl,
    ?_, ?_, rfl, ?_⟩
  · rintro s _ a rfl ha
    exact ⟨a, ha, rfl, rfl, rfl⟩
  · rintro s _ rfl
    rfl
  · intro s a b _ hab
    rw [hsame hab]
    rfl
  · intro s a b _ hab
    rw [hsame hab]
    rfl
  · change Option.Rel _ x.library x.library
    rw [hlibrary]
    exact .none

/-- A run with short chains goes the way of a run with long ones, statement by statement. -/
def truncationBridge (hm : 1 ≤ m) (hp : x.program.Built) (hlibrary : x.library = none)
    (hnative : x.native = .conservative) {c c' : Coupled}
    (hfixed : Coupled.IsFixedPoint (x.withLength m) c')
    (hkept : ∀ d e, c.Holds d e → m < e.fact.path.fields.length →
      x.consumes d e.node e.fact.path = false) :
    Bridge (truncation m) (x.withLength n) (x.withLength m) c c' where
  stands _ s s' := s' = s
  leaves d s s' := s' = s ∧ (x.program.view d).isExit s = true
  twin := twin_truncation hmn hm hp hlibrary
  built := hp
  fixed := hfixed
  self hs := hs.symm
  call _ := ⟨_, rfl⟩
  step := by
    intro d s t ht
    -- statement for statement, so nothing is skipped or inserted on the way
    refine Or.inl ⟨s, rfl, List.ne_nil_of_mem ht, ?_⟩
    rintro k u - - hholds _ rfl
    exact hholds _ ht
  start := by
    intro d m' s hs
    refine ⟨⟨s, hs⟩, ?_⟩
    rintro k u - - hholds _ rfl
    exact hholds _ hs
  exit := by
    intro d e k u _ hexit _ _ hreaches
    exact ⟨e.node, ⟨rfl, hexit⟩, hreaches e.node rfl⟩
  left := by
    rintro d s _ ⟨rfl, hexit⟩
    exact ⟨hexit, Or.inl rfl, rfl⟩
  caller hs := ⟨_, rfl, hs⟩
  uncalled hnone := hnone
  fits hheld hq := fits_truncation hmn hm hnative hq (hkept _ _ hheld)

end

/-! ## Whole analyses -/

theorem Setup.validate_of_analyze {x : Setup} {entries : List MethodId} {fuel : Nat} {out : Outcome}
    (h : x.analyze entries fuel = .ok out) : x.settings.validate = .ok () := by
  unfold analyze check at h
  cases hvalid : x.settings.validate with
  | error reason =>
    rw [hvalid] at h
    cases h
  | ok u => rfl

/-- Shortening the bound on access paths from `n` to `m` loses no finding, provided that no fact
with more than `m` fields meets a statement that consumes its first field, and that the exits that
are let out with the longer bound are let out with the shorter one. Then every edge is still there
with its chains cut. -/
theorem containsFlow_of_longer {x : Setup} (hp : x.program.Built) (hlibrary : x.library = none)
    (hnative : x.native = .conservative) (hstop : x.settings.stopAfterFirstFlow = false)
    (hmax : x.settings.maxPropagations = 0) {m n : Nat} (hmn : m ≤ n) {entries : List MethodId}
    {fuel fuel' : Nat} {out out' : Outcome}
    (hrun : (x.withLength n).analyze entries fuel = .ok out)
    (hrun' : (x.withLength m).analyze entries fuel' = .ok out')
    (hkept : ∀ d e, out.final.Holds d e → m < e.fact.path.fields.length →
      x.consumes d e.node e.fact.path = false)
    (hout : ∀ d e, (x.program.view d).isExit e.node = true → out.final.Holds d e →
      out'.final.Holds d (e.upTo m) → Coupled.LetsOut (x.withLength n) out.final d e →
      Coupled.LetsOut (x.withLength m) out'.final d (e.upTo m)) :
    (∀ d e, out.final.Holds d e → out'.final.Holds d (e.upTo m)) ∧ ∀ sink source,
      out.final.findings.containsFlow sink source = true →
      out'.final.findings.containsFlow sink source = true := by
  have hm : 1 ≤ m := Setup.one_le_most (Setup.validate_of_analyze hrun')
  have hignores : x.native.IgnoresBookkeeping := by
    rw [hnative]
    exact NativeModel.conservative_ignoresBookkeeping
  obtain ⟨starts, R, hstarts, hsettles⟩ :=
    Setup.exists_settles (x := x.withLength n) hp hignores hstop hmax hrun
  obtain ⟨starts', R', hstarts', hsettles'⟩ :=
    Setup.exists_settles (x := x.withLength m) hp hignores hstop hmax hrun'
  let B := truncationBridge hmn hm hp hlibrary hnative hsettles'.fixed hkept
  have hcontains : B.extent.Contains out.final := by
    refine B.contains hsettles hignores (B.reaches_starts hstarts hstarts' hsettles'.started) ?_
    -- an exit that is let out with long chains is let out with short ones, by assumption
    intro d e he hmem hexit q l hrel
    obtain ⟨hheld, k, t, hk, ht, hreaches⟩ := hmem
    obtain rfl := taints_truncation.mp hk
    obtain rfl := taints_truncation.mp ht
    have hletsOut := hout d e hexit hheld (hreaches e.node rfl) (hsettles.letsOut d e he hexit)
    have hfacts : (truncation m).Facts e.fact (e.upTo m).fact := ht
    exact B.takesIn_release ⟨hheld, _, _, hk, ht, hreaches⟩ ⟨rfl, hexit⟩ hk hfacts hletsOut hrel
  constructor
  · intro d e hheld
    obtain ⟨g, hg, htaint⟩ := hheld.exists_edge (hsettles.fixed.coherent d)
    obtain ⟨-, k, t, hk, ht, hreaches⟩ := hcontains.edges d _ hg
    obtain rfl := taints_truncation.mp hk
    obtain rfl := taints_truncation.mp ht
    have hholds := hreaches e.node rfl
    rw [htaint] at hholds
    exact hholds
  · intro sink source hflow
    obtain ⟨r, hr, rfl, rfl⟩ := Coupled.exists_of_containsFlow hflow
    obtain ⟨sink, source, hsink, hsource, hfound⟩ := hcontains.pairs r hr
    cases hsink
    cases hsource
    exact hfound

/-! A secret is put into a cell and the cell into a box, and the box is sent. -/

def boxed : List Description :=
  let text (name : String) : Value := .local ⟨⟨0⟩, name, .string⟩
  let box : Local := ⟨⟨0⟩, "o", .object "Box"⟩
  let cell : Local := ⟨⟨0⟩, "c", .object "Cell"⟩
  [.method "<A: void main()>" true false,
    .statement ⟨0⟩ .nop,
    .statement ⟨0⟩ (.assign (text "x") (.invoke none ⟨"Sec", "String", "get", []⟩ [])),
    .statement ⟨0⟩ (.assign (.field cell ⟨"Cell", "g"⟩) (text "x")),
    .statement ⟨0⟩ (.assign (.field box ⟨"Box", "f"⟩) (.local cell)),
    .statement ⟨0⟩ (.invoke ⟨none, ⟨"Net", "void", "send", ["Box"]⟩, [.local box]⟩),
    .statement ⟨0⟩ (.return none)]

def boxedSetup : Setup where
  program := (Program.ofDescription boxed).toOption.getD ⟨#[], #[], #[], #[], #[], #[]⟩
  classifier := .ofStatements [⟨1⟩] [⟨4⟩]

/-- With one field per path the box itself is tainted, and the flow is still found. -/
theorem containsFlow_of_longer_boxed : ∃ out out',
    (boxedSetup.withLength 2).analyze [⟨0⟩] 40 = .ok out ∧
    (boxedSetup.withLength 1).analyze [⟨0⟩] 40 = .ok out' ∧
    (∃ e, 1 < e.fact.path.fields.length ∧ out.final.Holds .forward e ∧
      out'.final.Holds .forward (e.upTo 1)) ∧
    out.final.findings.containsFlow ⟨4⟩ ⟨1⟩ = true ∧
    out'.final.findings.containsFlow ⟨4⟩ ⟨1⟩ = true := by
  have hlong : ((boxedSetup.withLength 2).analyze [⟨0⟩] 40).toOption.any (fun out =>
      out.final.findings.containsFlow ⟨4⟩ ⟨1⟩
        && (out.final.forward.edges.toList.any fun e => 1 < e.fact.path.fields.length)
        && [Direction.forward, .backward].all fun d => (out.final.state d).edges.toList.all fun e =>
          e.fact.path.fields.length ≤ 1 || !boxedSetup.consumes d e.node e.fact.path) = true := by
    decide +kernel
  have hshort : ((boxedSetup.withLength 1).analyze [⟨0⟩] 40).toOption.any (fun _ => true) =
      true := by
    decide +kernel
  obtain ⟨out, hout, hchecks⟩ := exists_of_any_toOption hlong
  obtain ⟨out', hout', -⟩ := exists_of_any_toOption hshort
  simp only [Bool.and_eq_true] at hchecks
  obtain ⟨⟨hflow, hchain⟩, hkept⟩ := hchecks
  have hp : boxedSetup.program.Built := ⟨boxed, rfl⟩
  have hignores := NativeModel.conservative_ignoresBookkeeping
  obtain ⟨_, _, -, hsettles⟩ :=
    Setup.exists_settles (x := boxedSetup.withLength 2) hp hignores rfl rfl hout
  obtain ⟨_, _, -, hsettles'⟩ :=
    Setup.exists_settles (x := boxedSetup.withLength 1) hp hignores rfl rfl hout'
  -- the assumption is decided on the edges of the run, and held edges have their taints
  have hconsumes : ∀ d e, out.final.Holds d e → 1 < e.fact.path.fields.length →
      boxedSetup.consumes d e.node e.fact.path = false := by
    intro d e hheld hlength
    obtain ⟨g, hg, htaint⟩ := hheld.exists_edge (hsettles.fixed.coherent d)
    have hd : d ∈ [Direction.forward, .backward] := by cases d <;> decide
    have hcheck := List.all_eq_true.mp (List.all_eq_true.mp hkept d hd) _
      (Array.mem_toList_iff.mpr hg)
    have hpath : g.path = e.fact.path := congrArg Taint.path htaint
    simp only [hpath, Bool.or_eq_true, decide_eq_true_eq, Bool.not_eq_true'] at hcheck
    exact hcheck.resolve_left (by omega)
  have hnone : ∀ s, boxedSetup.program.calleesOf s = [] := Program.calleesOf_eq_nil (by decide)
  -- nothing calls anything, so every exit is let out
  have hletsOut : ∀ d e, (boxedSetup.program.view d).isExit e.node = true → out'.final.Holds d e →
      Coupled.LetsOut (boxedSetup.withLength 1) out'.final d e := by
    intro d e hexit hheld
    refine hsettles'.fixed.letsOut hignores hheld hexit ?_
    rintro call - ⟨-, hcallee, -⟩
    rw [Program.calleesOf_view] at hcallee
    have hcallee' : _ ∈ boxedSetup.program.calleesOf call.node := hcallee
    rw [hnone] at hcallee'
    cases hcallee'
  obtain ⟨hholds, hflows⟩ := containsFlow_of_longer hp rfl rfl rfl rfl (by decide) hout hout'
    hconsumes fun d e hexit _ hheld _ => hletsOut d (e.upTo 1) hexit hheld
  obtain ⟨e, he, hlength⟩ := List.any_eq_true.mp hchain
  have hheld : out.final.Holds .forward e :=
    (hsettles.fixed.coherent .forward).holds_of_mem (Array.mem_toList_iff.mp he)
  exact ⟨out, out', hout, hout', ⟨e, of_decide_eq_true hlength, hheld, hholds _ e hheld⟩, hflow,
    hflows _ _ hflow⟩

/-! A cell is read from a box twice, and a secret is stored to it through the first name. -/

def rereading : List Description :=
  let text (name : String) : Value := .local ⟨⟨0⟩, name, .string⟩
  let cell (name : String) : Local := ⟨⟨0⟩, name, .object "Cell"⟩
  let stored : Value := .field ⟨⟨0⟩, "o", .object "Box"⟩ ⟨"Box", "f"⟩
  [.method "<A: void main()>" true false,
    .statement ⟨0⟩ .nop,
    .statement ⟨0⟩ (.assign (.local (cell "t")) stored),
    .statement ⟨0⟩ (.assign (.local (cell "u")) stored),
    .statement ⟨0⟩ (.assign (.local (cell "v")) (.local (cell "u"))),
    .statement ⟨0⟩ (.assign (text "x") (.invoke none ⟨"Sec", "String", "get", []⟩ [])),
    .statement ⟨0⟩ (.assign (.field (cell "t") ⟨"Cell", "g"⟩) (text "x")),
    .statement ⟨0⟩ (.assign (text "y") (.field (cell "v") ⟨"Cell", "g"⟩)),
    .statement ⟨0⟩ (.invoke ⟨none, ⟨"Net", "void", "send", ["String"]⟩, [text "y"]⟩),
    .statement ⟨0⟩ (.return none)]

def rereadingSetup : Setup where
  program := (Program.ofDescription rereading).toOption.getD ⟨#[], #[], #[], #[], #[], #[]⟩
  classifier := .ofStatements [⟨4⟩] [⟨7⟩]

/-! A box with a secret in its cell is thrown, and its handler has a native method replace the cell
before it catches the box. -/

def rethrown : List Description :=
  let cell (name : String) : Local := ⟨⟨1⟩, name, .object "Cell"⟩
  let box (name : String) : Local := ⟨⟨1⟩, name, .object "Box"⟩
  let text (name : String) : Value := .local ⟨⟨1⟩, name, .string⟩
  let stored : Value := .field (box "o") ⟨"Box", "f"⟩
  [.method "<Lib: Cell arraycopy(Box)>" true true, .method "<A: void main()>" true false,
    .statement ⟨1⟩ .nop,
    .statement ⟨1⟩ (.assign (text "x") (.invoke none ⟨"Sec", "String", "get", []⟩ [])),
    .statement ⟨1⟩ (.assign (.field (cell "c") ⟨"Cell", "g"⟩) (text "x")),
    .statement ⟨1⟩ (.assign stored (.local (cell "c"))),
    .statement ⟨1⟩ (.throw (.local (box "o"))),
    .statement ⟨1⟩ (.assign stored
      (.invoke none ⟨"Lib", "Cell", "arraycopy", ["Box"]⟩ [.local (box "o")])),
    .statement ⟨1⟩ (.identity (box "e") .caughtException),
    .statement ⟨1⟩ (.assign (.local (cell "y")) stored),
    .statement ⟨1⟩ (.invoke ⟨none, ⟨"Net", "void", "send", ["Cell"]⟩, [.local (cell "y")]⟩),
    .statement ⟨1⟩ (.return none),
    .edge ⟨4⟩ ⟨5⟩]

def rethrownSetup : Setup where
  program := (Program.ofDescription rethrown).toOption.getD ⟨#[], #[], #[], #[], #[], #[]⟩
  classifier := .ofStatements [⟨1⟩] [⟨8⟩]

/-! `fetch`, `pad` and `main` are entry methods. Nothing calls `unused`, which sends what it gets
from `fetch`; but with longer chains `pad` keeps the analysis busy until `fetch` is left before
`main` has called it. -/

def delayed : List Description :=
  let text (m : Nat) (name : String) : Value := .local ⟨⟨m⟩, name, .string⟩
  let get : Value := .invoke none ⟨"Sec", "String", "get", []⟩ []
  let fetch : Value := .invoke none ⟨"A", "String", "fetch", []⟩ []
  let cell : Local := ⟨⟨1⟩, "c", .object "Cell"⟩
  let nops (m k : Nat) : List Description := List.replicate k (.statement ⟨m⟩ .nop)
  [.method "<A: String fetch()>" true false, .method "<A: void pad()>" true false,
    .method "<A: void main()>" true false, .method "<A: void unused()>" true false,
    .statement ⟨0⟩ (.assign (text 0 "x") get)] ++ nops 0 4 ++
  [.statement ⟨0⟩ (.return (text 0 "x")),
    .statement ⟨1⟩ (.assign (text 1 "s") get),
    .statement ⟨1⟩ (.assign (.field cell ⟨"Cell", "a"⟩) (text 1 "s")),
    .statement ⟨1⟩ (.assign (.field cell ⟨"Cell", "b"⟩) (text 1 "s")),
    .statement ⟨1⟩ (.assign (.field ⟨⟨1⟩, "o", .object "Box"⟩ ⟨"Box", "f"⟩) (.local cell))] ++
  nops 1 6 ++ nops 2 4 ++
  [.statement ⟨2⟩ (.invoke ⟨none, ⟨"Lib", "void", "tick", []⟩, []⟩),
    .statement ⟨2⟩ (.assign (text 2 "y") fetch), .statement ⟨2⟩ (.return none),
    .statement ⟨3⟩ (.assign (text 3 "z") fetch),
    .statement ⟨3⟩ (.invoke ⟨none, ⟨"Net", "void", "send", ["String"]⟩, [text 3 "z"]⟩),
    .statement ⟨3⟩ (.return none)]

def delayedSetup : Setup where
  program := (Program.ofDescription delayed).toOption.getD ⟨#[], #[], #[], #[], #[], #[]⟩
  settings := { batchSize := 8 }
  classifier := MethodLists.classifier
    { sources := [⟨"Sec", "String", "get", []⟩], sinks := [⟨"Net", "void", "send", ["String"]⟩] }

/-- The analysis finds the flow with two fields per path and misses it with one. -/
def Setup.LosesFlow (x : Setup) (entries : List MethodId) (sink source : StmtId) : Prop :=
  (x.withLength 2).FindsBeyond (x.withLength 1) entries 40 sink source sink source

/-- Shorter chains can lose a flow: where a chain is shortened, where a native call stores to a cut
chain, and where the schedule changes. -/
theorem shorter_chains_lose_flows : rereadingSetup.LosesFlow [⟨0⟩] ⟨7⟩ ⟨4⟩ ∧
    rethrownSetup.LosesFlow [⟨1⟩] ⟨8⟩ ⟨1⟩ ∧
    delayedSetup.LosesFlow [⟨0⟩, ⟨1⟩, ⟨2⟩] ⟨24⟩ ⟨0⟩ := by
  refine ⟨?_, ?_, ?_⟩
  · exact Setup.findsBeyond_of_runs (by decide +kernel) (by decide +kernel)
  · exact Setup.findsBeyond_of_runs (by decide +kernel) (by decide +kernel)
  · exact Setup.findsBeyond_of_runs (by decide +kernel) (by decide +kernel)

end TaintFlow
