import BindingTypes.Proofs.Scope.Edit
import BindingTypes.Proofs.Registry.Edit

namespace BindingTypes

/-- What is asked of the scopes without changing them. -/
inductive Question where
  | resolve (t : CType)
  | expand (t : CType)
  | qualify (t : CType)
  | findScope (name : Text)
  | lookupSymbol (name : Text)
deriving DecidableEq, Repr

/-- Only what the memory keeps of the answer matters here. -/
def Question.ask (g : ScopeGraph) : Question → Remembering Unit
  | resolve t => do let _ ← g.resolveVia .always t
  | expand t => do let _ ← g.expansionVia .always t
  | qualify t => do let _ ← g.qualifyVia .always t
  | findScope name => do let _ ← g.findScopeVia .always name
  | lookupSymbol name => do let _ ← g.lookupSymbolVia .always name

/-- An environment and what it answered so far. -/
structure Consulted where
  env : Environment
  memory : Memory := {}

/-- A step of a run. What changes the registry asks questions of its own. -/
inductive Operation where
  | scopes (e : Edit)
  | registry (e : RegistryEdit) (asked : List Question)
  | ask (q : Question)

namespace Consulted

/-- A step that ends in a fault leaves everything as it was. -/
def apply (s : Consulted) : Operation → Consulted
  | .scopes e =>
    match (s.env.graph.editVia .always e).run s.memory with
    | .ok (graph, memory) => ⟨{ s.env with graph }, memory⟩
    | .error _ => s
  | .registry e asked =>
    match s.env.register e, (asked.forM (Question.ask s.env.graph)).run s.memory with
    | .ok env, .ok (_, memory) => ⟨env, memory⟩
    | _, _ => s
  | .ask q =>
    match (q.ask s.env.graph).run s.memory with
    | .ok (_, memory) => { s with memory }
    | .error _ => s

def run (budget : Nat) (ops : List Operation) : Consulted :=
  ops.foldl apply { env := .new budget }

end Consulted

namespace Memory.RightFor

variable {s s' : Memory} {g : ScopeGraph}

theorem ask {q : Question} {u : Unit} (h : s.RightFor g) (hr : (q.ask g).run s = .ok (u, s')) :
    s'.RightFor g := by
  cases q with
  | resolve t =>
    obtain ⟨a, s₁, ha, hr⟩ := ScopeGraph.run_bind_eq_ok hr
    obtain ⟨-, rfl⟩ := ScopeGraph.run_pure_eq_ok hr
    exact h.of_run (ScopeGraph.follows_resolveTo g.budget t) ha
  | expand t =>
    obtain ⟨a, s₁, ha, hr⟩ := ScopeGraph.run_bind_eq_ok hr
    obtain ⟨-, rfl⟩ := ScopeGraph.run_pure_eq_ok hr
    exact h.of_run (ScopeGraph.follows_expansionVia t) ha
  | qualify t =>
    obtain ⟨a, s₁, ha, hr⟩ := ScopeGraph.run_bind_eq_ok hr
    obtain ⟨-, rfl⟩ := ScopeGraph.run_pure_eq_ok hr
    exact h.of_run (ScopeGraph.follows_qualifyVia t) ha
  | findScope name =>
    obtain ⟨a, s₁, ha, hr⟩ := ScopeGraph.run_bind_eq_ok hr
    obtain ⟨-, rfl⟩ := ScopeGraph.run_pure_eq_ok hr
    exact h.of_run (ScopeGraph.follows_findScopeVia name) ha
  | lookupSymbol name =>
    obtain ⟨a, s₁, ha, hr⟩ := ScopeGraph.run_bind_eq_ok hr
    obtain ⟨-, rfl⟩ := ScopeGraph.run_pure_eq_ok hr
    exact h.of_run (ScopeGraph.follows_lookupSymbolVia name) ha

theorem askAll {qs : List Question} {u : Unit} (h : s.RightFor g)
    (hr : (qs.forM (Question.ask g)).run s = .ok (u, s')) : s'.RightFor g := by
  induction qs generalizing s with
  | nil =>
    obtain ⟨-, rfl⟩ := ScopeGraph.run_pure_eq_ok hr
    exact h
  | cons q qs ih =>
    change (q.ask g >>= fun _ => qs.forM (Question.ask g)).run s = .ok (u, s') at hr
    obtain ⟨v, s₁, hq, hr⟩ := ScopeGraph.run_bind_eq_ok hr
    exact ih (h.ask hq) hr

end Memory.RightFor

namespace Consulted

/-- A step that fails does nothing. Another one does what its operation does, and remembers what
that has asked. -/
theorem apply_cases (s : Consulted) (op : Operation) :
    s.apply op = s ∨
    (∃ e r, op = .scopes e ∧ (s.env.graph.editVia .always e).run s.memory = .ok r ∧
      s.apply op = ⟨{ s.env with graph := r.1 }, r.2⟩) ∨
    (∃ e asked env r, op = .registry e asked ∧ s.env.register e = .ok env ∧
      (asked.forM (Question.ask s.env.graph)).run s.memory = .ok r ∧ s.apply op = ⟨env, r.2⟩) ∨
    ∃ q r, op = .ask q ∧ (q.ask s.env.graph).run s.memory = .ok r ∧
      s.apply op = { s with memory := r.2 } := by
  cases op with
  | scopes e =>
    cases hr : (s.env.graph.editVia .always e).run s.memory with
    | error f => exact Or.inl (by simp only [apply, hr])
    | ok r => exact Or.inr (Or.inl ⟨e, r, rfl, hr, by simp only [apply, hr]⟩)
  | registry e asked =>
    cases he : s.env.register e with
    | error f => exact Or.inl (by simp only [apply, he])
    | ok env =>
      cases hr : (asked.forM (Question.ask s.env.graph)).run s.memory with
      | error f => exact Or.inl (by simp only [apply, he, hr])
      | ok r =>
        exact Or.inr (Or.inr (Or.inl ⟨e, asked, env, r, rfl, he, hr, by simp only [apply, he, hr]⟩))
  | ask q =>
    cases hr : (q.ask s.env.graph).run s.memory with
    | error f => exact Or.inl (by simp only [apply, hr])
    | ok r => exact Or.inr (Or.inr (Or.inr ⟨q, r, rfl, hr, by simp only [apply, hr]⟩))

theorem rightFor_apply {s : Consulted} (h : s.memory.RightFor s.env.graph) (op : Operation) :
    (s.apply op).memory.RightFor (s.apply op).env.graph := by
  rcases s.apply_cases op with hs | ⟨e, r, -, hr, hs⟩ | ⟨e, asked, env, r, -, he, hr, hs⟩ |
    ⟨q, r, -, hr, hs⟩
  · rwa [hs]
  · rw [hs]
    exact ScopeGraph.rightFor_editVia h hr
  · rw [hs]
    exact Environment.graph_register he ▸ h.askAll hr
  · rw [hs]
    exact h.ask hr

theorem rightFor_run (budget : Nat) (ops : List Operation) :
    (run budget ops).memory.RightFor (run budget ops).env.graph := by
  unfold run
  have hstart : ({ env := .new budget } : Consulted).memory.RightFor
      ({ env := .new budget } : Consulted).env.graph := Memory.RightFor.empty _
  generalize ({ env := .new budget } : Consulted) = s at hstart ⊢
  induction ops generalizing s with
  | nil => exact hstart
  | cons op ops ih => exact ih (s.apply op) (rightFor_apply hstart op)

end Consulted

/-- Work that uses the memory `s` comes to what the plain work comes to: to nothing else with any
budget, and to that with the same budget. -/
def SameOutcomes {α : Type} (s : Memory) (x : Nat → Remembering α) (y : Nat → Except Fault α) :
    Prop :=
  ∀ r n, r ≠ .error .exhausted →
    (((x n).run s).map (·.1) = r → Settles y r) ∧ (y n = r → ((x n).run s).map (·.1) = r)

namespace ScopeGraph

theorem sameOutcomes_of_follows {α : Type} {g : ScopeGraph} {s : Memory} {x : Nat → Remembering α}
    {y : Nat → Except Fault α} (hs : s.RightFor g)
    (hx : ∀ n, (g.withBudget n).Follows (x n) y)
    (hy : ∀ n, (g.withBudget n).Reaches (x n) (y n)) : SameOutcomes s x y := by
  intro r n hne
  have hsn := hs.withBudget n
  refine ⟨fun hr => ?_, fun hr => ?_⟩
  · have hf := hx n s hsn
    cases hrun : (x n).run s with
    | ok o =>
      rw [hrun] at hf hr
      exact hr ▸ hf.1
    | error f =>
      rw [hrun] at hf hr
      subst hr
      exact hf.resolve_left fun he => hne (he ▸ rfl)
  · have hf := hy n s hsn
    cases r with
    | ok a =>
      rw [hr] at hf
      obtain ⟨s', hrun, -⟩ := hf
      rw [hrun]
      rfl
    | error f =>
      rw [hr] at hf
      rw [hf.resolve_left fun he => hne (he ▸ rfl)]
      rfl

/-- Expansion with the default loop, each step with what resolution gives. -/
theorem reaches_chase {g : ScopeGraph} (t : CType) :
    g.Reaches (Resolver.chase (fun u => (·.type) <$> g.expansionVia .always u) (g.budget + 1) [] t)
      (Resolver.chase (fun u => (·.type) <$> g.expansionVia .never u) (g.budget + 1) [] t) :=
  g.reaches.chase (d := fun _ u => (·.type) <$> g.expansionVia .never u)
    (fun u => g.reaches.map (·.type) (g.reaches.expandStep (s := fun _ => g.resolveVia .never)
      (fun _ => Alike.refl g) (fun v => reaches_resolveTo g.budget v) u)) (g.budget + 1) [] t

theorem Reaches.of_refines {α : Type} {g : ScopeGraph} {x : Remembering α} {y z : Except Fault α}
    (h : g.Reaches x z) (hyz : Refines y z) : g.Reaches x y := by
  rcases hyz with rfl | rfl
  · exact fun _ _ => Or.inl rfl
  · exact h

theorem resolveVia_refines_chase {g : ScopeGraph} (n : Nat) (t : CType) :
    Refines ((g.withBudget n).resolveVia .never t)
      (Resolver.chase (fun u => (·.type) <$> (g.withBudget n).expansionVia .never u) (n + 1) [] t) := by
  cases n with
  | zero => exact Or.inl rfl
  | succ n =>
    have hr : ∀ u, largerBudget.related ((g.withBudget (n + 1)).resolveTo .never n u)
        fun _ => (g.withBudget (n + 1)).resolveVia .never u :=
      fun u => g.resolveTo_refines (Nat.le_refl _) (Nat.le_succ n) u
    exact largerBudget.chase (fun u => largerBudget.map (·.type)
      (largerBudget.expandStep (fun _ => Alike.refl (g.withBudget (n + 1))) hr u)) (n + 2) [] t

end ScopeGraph

/-- After any run, resolution and qualification with the answers kept so far come to what they come
to with nothing remembered, and so does the default loop over single expansions. -/
theorem memory_changes_no_outcome (budget : Nat) (ops : List Operation) (t : CType) :
    let s := Consulted.run budget ops
    let g := s.env.graph.withBudget
    SameOutcomes s.memory (fun n => (g n).resolveVia .always t) (fun n => (g n).resolveVia .never t) ∧
    SameOutcomes s.memory (fun n => (g n).qualifyVia .always t) (fun n => (g n).qualifyVia .never t) ∧
    SameOutcomes s.memory
      (fun n => Resolver.chase (fun u => (·.type) <$> (g n).expansionVia .always u) (n + 1) [] t)
      (fun n => (g n).resolveVia .never t) := by
  intro s g
  have hs : s.memory.RightFor s.env.graph := Consulted.rightFor_run budget ops
  refine ⟨?_, ?_, ?_⟩
  · refine ScopeGraph.sameOutcomes_of_follows hs (fun n => ?_) fun n => ?_
    · exact ScopeGraph.follows_resolveTo n t
    · exact ScopeGraph.reaches_resolveTo n t
  · refine ScopeGraph.sameOutcomes_of_follows hs (fun n => ?_) fun n => ?_
    · exact ScopeGraph.follows_qualifyVia (g := g n) t
    · exact ScopeGraph.reaches_qualifyVia t
  · refine ScopeGraph.sameOutcomes_of_follows hs (fun n => ?_) fun n => ?_
    · exact ScopeGraph.follows_chase (g := g n) _ (fun u => ScopeGraph.follows_resolveTo n u) n t
    · exact (ScopeGraph.reaches_chase t).of_refines (ScopeGraph.resolveVia_refines_chase n t)

end BindingTypes
