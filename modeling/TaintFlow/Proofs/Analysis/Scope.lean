import TaintFlow.Proofs.Analysis.Phases
import TaintFlow.Proofs.Analysis.Simulation
import TaintFlow.Proofs.Flow.Scope

/-!
# Facts stay in their method

In a program whose statements mention locals of their own method only, no run ever takes a fact
about a local out of the method that owns it. Calls and returns rename the places of facts on both
sides, also when a method is left into every caller, and alias candidates are handed over inside a
method. So the locals of a caller and of its callee are never confused, not even where a method
calls itself.
-/

namespace TaintFlow

open Tabulation

/-- Path edges whose context and fact are in scope in the method of their node. -/
def Program.edgesInScope (p : Program) : Extent where
  edges _ := {e | e.context.InScope (p.ownerOf e.node) ∧ e.fact.taint.InScope (p.ownerOf e.node)}
  pairs := Set.univ

section

variable {x : Setup} (hp : x.program.Built) {d : Direction}

include hp

/-- What is asked about an edge in scope is asked about a fact that is in scope where the question
begins, and lands in scope if the answer is in scope where the question ends. -/
theorem Extent.Owes.inScope {q : Query} {f : Fact} {l : Landing Taint}
    (h : x.program.edgesInScope.Owes x d q f l) :
    f.taint.InScope (x.program.ownerOf q.flowEdge.node) ∧
      ∀ g : Fact, g.taint.InScope (x.program.landsIn q.flowEdge) →
        ∀ e ∈ l.edge? Fact.taint g, e ∈ x.program.edgesInScope.edges d := by
  -- control flow stays inside a method, which settles all landings but those in a callee
  have hlocal : ∀ {s t : StmtId}, t ∈ (x.problem d).view.succsOf s →
      x.program.ownerOf t = x.program.ownerOf s := by
    intro s t ht
    have howner := hp.edgesLocal d s t ht
    rwa [Program.ownerOf_view] at howner
  have hwithin : ∀ {context : Taint} {s t : StmtId}, t ∈ (x.problem d).view.succsOf s →
      context.InScope (x.program.ownerOf s) → ∀ g : Fact, g.taint.InScope (x.program.ownerOf s) →
      ∀ e ∈ (Landing.within context t).edge? Fact.taint g,
        e ∈ x.program.edgesInScope.edges d := by
    intro context s t ht hcontext g hg e he
    cases he
    rw [← hlocal ht] at hcontext hg
    exact ⟨hcontext, hg⟩
  have hanew : ∀ {t : StmtId} (g : Fact), g.taint.InScope (x.program.ownerOf t) →
      ∀ e ∈ (Landing.anew t).edge? Fact.taint g, e ∈ x.program.edgesInScope.edges d := by
    intro t g hg e he
    cases he
    exact ⟨hg, hg⟩
  have hnowhere : ∀ {m : MethodId} (g : Fact), g.taint.InScope m →
      ∀ e ∈ Landing.nowhere.edge? Fact.taint g, e ∈ x.program.edgesInScope.edges d := by
    intro m g _ e he
    cases he
  cases h with
  | normal he _ hs => exact ⟨he.2, hwithin hs he.1⟩
  | bypass he _ hs => exact ⟨he.2, hwithin hs he.1⟩
  | call he _ _ => exact ⟨he.2, hnowhere⟩
  | @enter e callee start he _ _ hs =>
    refine ⟨he.2, ?_⟩
    intro g hg
    have howner := hp.startsOwned d callee start hs
    rw [Program.ownerOf_view] at howner
    exact hanew g (howner.symm ▸ hg)
  | leave hc _ _ _ _ hx _ hs => exact ⟨hx.2, hwithin hs hc.1⟩
  | release _ hx _ hrel =>
    cases hrel with
    | toCaller _ hs =>
      refine ⟨hx.1.2, ?_⟩
      intro g hg
      -- facts are let out to a caller under the zero context or as their own start
      split
      · exact hwithin hs (Or.inl rfl) g hg
      · exact hanew g (hlocal hs ▸ hg)
    | departure _ => exact ⟨hx.1.2, hnowhere⟩

theorem Program.bounds_edgesInScope (howned : x.program.LocalsOwned)
    (hnative : x.native = .conservative) : x.program.edgesInScope.Bounds x fun _ => True where
  facts := by
    intro d q f l howes g hg
    obtain ⟨hf, hlands⟩ := howes.inScope hp
    exact hlands g (Setup.inScope_of_facts howned hp hnative hf (Setup.answer_subset hg))
  handed := by
    intro d q f l howes h hh
    have hscope := Setup.inScope_of_handed howned hh
    have howner := hp.edgesLocal d.opposite _ _ (Setup.site_of_handed hp hh).1
    rw [Program.ownerOf_view] at howner
    rw [← howner] at hscope
    exact ⟨hscope, hscope⟩
  findings _ _ _ := trivial
  fault _ _ _ := trivial
  ranged _ _ _ := Or.inr trivial

end

/-- In every state of a run the context and the fact of every path edge are in scope: in the tables,
in the inboxes and in the summaries of either side, each is zero, at a static field, or at a local
of the method that contains the node of the edge. -/
theorem Coupled.inScope_of_reachable {x : Setup} (hp : x.program.Built)
    (howned : x.program.LocalsOwned) (hnative : x.native = .conservative) {starts : List StmtId}
    {c : Coupled} (h : Reachable x starts c) (d : Direction) {e : Edge Fact Taint}
    (he : (c.state d).Carries e) :
    e.context.InScope (x.program.ownerOf e.node) ∧
      e.fact.taint.InScope (x.program.ownerOf e.node) := by
  have hbounds := Program.bounds_edgesInScope hp howned hnative
  have hconfines := confines_of_reachable hbounds hp (fun s _ => ⟨Or.inl rfl, Or.inl rfl⟩) h
  exact (hconfines.admits d).carries he

/-- The method that wraps its argument is entered a second time, by itself, and the object that it
has wrapped is a taint of its own parameter there. The search for another name of the wrapper stays
inside the method as well. -/
theorem Coupled.inScope_wrapping : ∃ c, Reachable wrappingSetup [⟨0⟩] c ∧
    (∃ e ∈ c.forward.edges, e.node = ⟨5⟩ ∧ e.context.path.fields.length = 2 ∧
      e.context.InScope ⟨1⟩ ∧ e.fact.taint.InScope ⟨1⟩) ∧
    ∃ e ∈ c.backward.edges, e.node = ⟨6⟩ ∧ e.context.InScope ⟨1⟩ ∧ e.fact.taint.InScope ⟨1⟩ := by
  have hrun : ((ofStarts [⟨0⟩]).steps wrappingSetup [.forward, .forward, .forward, .forward,
      .forward, .forward, .forward, .forward, .forward, .backward]).toOption.any (fun c =>
        (c.forward.edges.toList.any fun e =>
          e.node == ⟨5⟩ && e.context.path.fields.length == 2) &&
        c.backward.edges.toList.any fun e => e.node == ⟨6⟩) = true := by
    decide +kernel
  obtain ⟨c, hsteps, hc⟩ := exists_of_any_toOption hrun
  simp only [Bool.and_eq_true, List.any_eq_true, Array.mem_toList_iff, beq_iff_eq] at hc
  obtain ⟨⟨e, he, hnode, hlength⟩, e', he', hnode'⟩ := hc
  have hreachable := Reachable.start.steps hsteps
  have howned : wrappingSetup.program.LocalsOwned := by
    unfold Program.LocalsOwned
    decide +kernel
  have hscope := inScope_of_reachable ⟨wrapping, rfl⟩ howned rfl hreachable .forward (.recorded he)
  have hscope' :=
    inScope_of_reachable ⟨wrapping, rfl⟩ howned rfl hreachable .backward (.recorded he')
  have howner : ∀ s ∈ [⟨5⟩, ⟨6⟩], wrappingSetup.program.ownerOf s = ⟨1⟩ := by decide +kernel
  rw [hnode, howner ⟨5⟩ (by simp)] at hscope
  rw [hnode', howner ⟨6⟩ (by simp)] at hscope'
  exact ⟨c, hreachable, ⟨e, he, hnode, hlength, hscope⟩, e', he', hnode', hscope'⟩

end TaintFlow
