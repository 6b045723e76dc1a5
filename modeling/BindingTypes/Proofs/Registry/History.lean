import Mathlib.Data.List.Induction
import BindingTypes.Proofs.Registry.Records
import BindingTypes.Proofs.Scope.Transparency

namespace BindingTypes

namespace Consulted

/-- A scope graph that a run has been through. -/
def Visited (budget : Nat) (ops : List Operation) (g : ScopeGraph) : Prop :=
  ∃ n ≤ ops.length, g = (run budget (ops.take n)).env.graph

theorem run_concat (budget : Nat) (ops : List Operation) (op : Operation) :
    run budget (ops ++ [op]) = (run budget ops).apply op := by
  simp [run]

theorem visited_run (budget : Nat) (ops : List Operation) :
    Visited budget ops (run budget ops).env.graph :=
  ⟨ops.length, Nat.le_refl _, by rw [List.take_length]⟩

theorem Visited.concat {budget : Nat} {ops : List Operation} {g : ScopeGraph}
    (h : Visited budget ops g) (op : Operation) : Visited budget (ops ++ [op]) g := by
  obtain ⟨n, hn, rfl⟩ := h
  have hlength : (ops ++ [op]).length = ops.length + 1 := by simp
  refine ⟨n, by omega, ?_⟩
  rw [List.take_append_of_le_length hn]

theorem registry_apply (s : Consulted) (op : Operation) :
    (s.apply op).env.registry = s.env.registry ∨
      ∃ e asked, op = .registry e asked ∧ s.env.register e = .ok (s.apply op).env := by
  rcases s.apply_cases op with h | ⟨e, r, -, -, h⟩ | ⟨e, asked, env, r, hop, he, -, h⟩ |
    ⟨q, r, -, -, h⟩
  · exact Or.inl (by rw [h])
  · exact Or.inl (by rw [h])
  · exact Or.inr ⟨e, asked, hop, he.trans (by rw [h])⟩
  · exact Or.inl (by rw [h])

/-- What holds of the registry after every run: it holds in the beginning, more graphs that were
been through do no harm, and every change of the registry keeps it. -/
theorem registry_run {P : (ScopeGraph → Prop) → Registry → Prop} (budget : Nat)
    (hstart : ∀ H, P H {})
    (hmore : ∀ H H' r, (∀ g, H g → H' g) → P H r → P H' r)
    (hstep : ∀ H (env : Environment) e env', H env.graph → P H env.registry →
      env.register e = .ok env' → P H env'.registry)
    (ops : List Operation) : P (Visited budget ops) (run budget ops).env.registry := by
  induction ops using List.reverseRecOn with
  | nil => exact hstart _
  | append_singleton ops op ih =>
    have hp : P (Visited budget (ops ++ [op])) (run budget ops).env.registry :=
      hmore _ _ _ (fun g hg => hg.concat op) ih
    rw [run_concat]
    rcases registry_apply (run budget ops) op with hs | ⟨e, -, -, he⟩
    · rw [hs]
      exact hp
    · exact hstep _ _ e _ ((visited_run budget ops).concat op) hp he

end Consulted

/-- Every remembered type is on record as it read in one of the graphs. -/
def Registry.RecordsRemembered (H : ScopeGraph → Prop) (r : Registry) : Prop :=
  ∀ t clientData, r.remembered.get? t = some clientData → ∃ g, H g ∧ r.Records g t

theorem Registry.RecordsRemembered.of_extends {H : ScopeGraph → Prop} {r r' : Registry}
    (h : r.RecordsRemembered H) (hr : r'.remembered = r.remembered) (he : r.Extends r') :
    r'.RecordsRemembered H := by
  intro t clientData ht
  rw [hr] at ht
  obtain ⟨g, hg, hrec⟩ := h t clientData ht
  exact ⟨g, hg, hrec.of_extends he⟩

namespace Environment

variable {env env' : Environment}

theorem recordsRemembered_record {H : ScopeGraph → Prop} {t : CType} {clientData : Option Text}
    {r : Registry} {e : Except RememberError Unit} (hg : H env.graph)
    (h : env.registry.RecordsRemembered H) (hr : env.record t clientData = .ok (e, r)) :
    r.RecordsRemembered H := by
  intro u data hu
  obtain ⟨name, canonical, hrec⟩ := recorded_of_record hr
  rw [hrec.remembered, Table.get?_insert] at hu
  by_cases hut : u = t
  · subst hut
    exact ⟨env.graph, hg, records_of_record hr⟩
  · rw [if_neg hut] at hu
    obtain ⟨g, hg, hu⟩ := h u data hu
    exact ⟨g, hg, hu.of_extends (extends_record hr)⟩

theorem recordsRemembered_register {H : ScopeGraph → Prop} {e : RegistryEdit} (hg : H env.graph)
    (h : env.registry.RecordsRemembered H) (he : env.register e = .ok env') :
    env'.registry.RecordsRemembered H := by
  refine (register_keeps (P := fun e => H e.graph ∧ e.registry.RecordsRemembered H) ?_ ?_ ?_
    ⟨hg, h⟩ he).2
  · intro env t clientData e r hp hr
    exact ⟨hp.1, recordsRemembered_record hp.1 hp.2 hr⟩
  · intro env derived base cast env' hp hs
    obtain ⟨subtypes, rfl⟩ := addSubtype_eq_ok hs
    exact ⟨hp.1, hp.2.of_extends rfl (Registry.extends_of_denoted_eq rfl)⟩
  · intro env env' hp hf
    have hs := sameRecords_foldSubtypes hf
    rw [graph_foldSubtypes hf]
    exact ⟨hp.1, hp.2.of_extends hs.remembered (Registry.extends_of_denoted_eq hs.denoted)⟩

end Environment

/-- Every remembered type is on record as it read at some moment of the run. -/
theorem Consulted.recordsRemembered_run (budget : Nat) (ops : List Operation) :
    (run budget ops).env.registry.RecordsRemembered (Visited budget ops) := by
  refine Consulted.registry_run (P := fun H r => r.RecordsRemembered H) budget ?_ ?_ ?_ ops
  · intro H t clientData h
    cases h
  · intro H H' r hH h t clientData ht
    obtain ⟨g, hg, hr⟩ := h t clientData ht
    exact ⟨g, hH g hg, hr⟩
  · intro H env e env' hg h he
    exact Environment.recordsRemembered_register hg h he

end BindingTypes
