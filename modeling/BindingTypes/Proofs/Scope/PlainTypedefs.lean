import BindingTypes.Proofs.CType.Mentions
import BindingTypes.Proofs.Registry.Records
import BindingTypes.Proofs.Scope.Placement
import BindingTypes.Proofs.Scope.Transparency
import BindingTypes.Proofs.Scope.Unfolding
import Mathlib.Data.List.Induction

namespace BindingTypes

/-- A typedef of an identifier for a type that is built from plain words. -/
structure PlainTypedef where
  name : Text
  type : CType
  /-- The words in the type. -/
  mentions : List Text
  isName : IsIdentifier name
  plain : type.Mentions mentions

namespace PlainTypedef

def operation (d : PlainTypedef) : Operation := .scopes (.define d.type d.name)

/-- The scopes after typedefs were declared one after the other in the global scope. -/
def graph (budget : Nat) (ds : List PlainTypedef) : ScopeGraph :=
  (Consulted.run budget (ds.map operation)).env.graph

end PlainTypedef

namespace ScopeGraph

open CType

/-- There is only the global scope, and its table has the typedefs `ds`. -/
structure Flat (g : ScopeGraph) (ds : List PlainTypedef) : Prop where
  current : g.current = globalScope
  length : g.scopes.length = 1
  rootName : g.nameOf globalScope = []
  rootParent : (g.scope globalScope).parent = none
  rootInherits : (g.scope globalScope).inherits = []
  rootUsings : (g.scope globalScope).usings = []
  named : ∀ n, n ≠ [] → g.byName.get? n = none
  declared : ∀ n e, (g.scope globalScope).typedefs.get? n = some e →
    ∃ d ∈ ds, d.name = n ∧ e.type = d.type ∧ d.type ≠ n
  known : ∀ d ∈ ds, d.type ≠ d.name → (g.scope globalScope).typedefs.contains d.name = true

variable {g : ScopeGraph} {ds : List PlainTypedef} {n b : Text}
  {resolve : CType → Except Fault CType}

theorem flat_new (budget : Nat) : (new budget).Flat [] where
  current := rfl
  length := rfl
  rootName := rfl
  rootParent := rfl
  rootInherits := rfl
  rootUsings := rfl
  named n hn := by
    show ((∅ : Table ScopeId).insert [] globalScope).get? n = none
    rw [Table.get?_insert, if_neg hn]
    rfl
  declared n e h := by cases h
  known d hd := by cases hd

namespace Flat

theorem withBudget (h : g.Flat ds) (k : Nat) : (g.withBudget k).Flat ds :=
  ⟨h.current, h.length, h.rootName, h.rootParent, h.rootInherits, h.rootUsings, h.named,
    h.declared, h.known⟩

variable (h : g.Flat ds)
include h

theorem lookup_eq_none (hn : (g.scope globalScope).typedefs.get? n = none) :
    g.lookup globalScope n = none := by
  unfold lookup lookupAlong
  rw [if_neg List.not_mem_nil]
  simp only [hn, h.rootInherits, h.rootParent]
  rfl

/-- No text names a scope. -/
theorem findNamed_eq_none (hn : n ≠ []) : g.findNamed globalScope n = none := by
  have hname : g.nameIn globalScope n = n := by
    rw [nameIn, h.rootName]
    rfl
  have houtward : g.outward globalScope = [globalScope] := by
    unfold outward outwardFrom
    rw [h.rootParent]
  have hwithin : g.findWithin n (g.scopes.length + 1) [] globalScope = (none, []) := by
    unfold findWithin
    rw [hname, h.named n hn, h.rootUsings]
    rfl
  rw [findNamed, houtward, findOutward, hwithin]
  rfl

theorem insertTypedef {d : PlainTypedef} (hself : d.type ≠ d.name) :
    (g.insertTypedef globalScope d.name ⟨d.type, false⟩).Flat (ds ++ [d]) := by
  have hroot : (g.insertTypedef globalScope d.name ⟨d.type, false⟩).scope globalScope =
      { g.scope globalScope with
        typedefs := (g.scope globalScope).typedefs.insert d.name ⟨d.type, false⟩ } := by
    refine (scope_modifyScope g globalScope globalScope _).trans (if_pos ⟨rfl, ?_⟩)
    rw [h.length]
    exact Nat.one_pos
  refine ⟨h.current, (List.length_modify _ _ _).trans h.length, ?_, ?_, ?_, ?_, h.named, ?_, ?_⟩
  · rw [nameOf, hroot]
    exact h.rootName
  · rw [hroot]
    exact h.rootParent
  · rw [hroot]
    exact h.rootInherits
  · rw [hroot]
    exact h.rootUsings
  · intro n e he
    rw [hroot, Table.get?_insert] at he
    by_cases hn : n = d.name
    · rw [if_pos hn] at he
      cases he
      exact ⟨d, List.mem_append_right _ List.mem_cons_self, hn.symm, rfl, hn ▸ hself⟩
    · rw [if_neg hn] at he
      obtain ⟨d', hd', hname⟩ := h.declared n e he
      exact ⟨d', List.mem_append_left _ hd', hname⟩
  · intro d' hd' hne
    rw [hroot]
    refine Table.contains_insert.mpr ?_
    rcases List.mem_append.mp hd' with hd' | hd'
    · exact Or.inr (h.known d' hd' hne)
    · exact Or.inl (congrArg PlainTypedef.name (List.mem_singleton.mp hd'))

/-- Accepted or not, a typedef leaves only the global scope. -/
theorem run_define (d : PlainTypedef) (s : Memory) :
    ∃ g', (g.editVia .always (.define d.type d.name)).run s = .ok (g', s) ∧
      g'.Flat (ds ++ [d]) := by
  -- Nothing is written for a name that has a typedef already, nor for a name as its own type.
  have hkept : ((g.scope globalScope).typedefs.contains d.name = true ∨ d.type = d.name) →
      g.Flat (ds ++ [d]) := by
    intro hd
    refine { h with declared := fun n e he => ?_, known := fun d' hd' hne => ?_ }
    · obtain ⟨d', hd', hn⟩ := h.declared n e he
      exact ⟨d', List.mem_append_left _ hd', hn⟩
    · rcases List.mem_append.mp hd' with hd' | hd'
      · exact h.known d' hd' hne
      · cases List.mem_singleton.mp hd'
        exact hd.resolve_right hne
  show ∃ g', (g.defineVia .always d.type d.name >>= fun r => pure (g.accept r)).run s = _ ∧ _
  unfold defineVia redefinition?
  rw [h.current]
  by_cases hdefined : (g.scope globalScope).typedefs.contains d.name = true
  · rw [if_pos hdefined]
    exact ⟨g, rfl, hkept (Or.inl hdefined)⟩
  · rw [if_neg hdefined]
    by_cases hself : d.type = d.name
    · simp only [if_pos hself]
      exact ⟨g, rfl, hkept (Or.inr hself)⟩
    · have hfind : g.findScopeVia .always d.type = (pure none : Remembering (Option ScopeId)) := by
        unfold findScopeVia findScopeFrom
        rw [d.plain.isTemplate, h.current]
        simp only [Bool.false_eq_true, if_false, pure_bind, h.findNamed_eq_none d.plain.ne_nil]
      simp only [if_neg hself, hfind, pure_bind, h.current]
      exact ⟨g.insertTypedef globalScope d.name ⟨d.type, false⟩, rfl, h.insertTypedef hself⟩

end Flat

theorem flat_graph (budget : Nat) (ds : List PlainTypedef) :
    (PlainTypedef.graph budget ds).Flat ds := by
  induction ds using List.reverseRecOn with
  | nil => exact flat_new budget
  | append_singleton ds d ih =>
    obtain ⟨g', hrun, hflat⟩ := ih.run_define d
      (Consulted.run budget (ds.map PlainTypedef.operation)).memory
    have hnext : PlainTypedef.graph budget (ds ++ [d]) = g' := by
      rw [PlainTypedef.graph, Consulted.run, List.map_append, List.foldl_append]
      show ((Consulted.run budget (ds.map PlainTypedef.operation)).apply d.operation).env.graph = g'
      simp only [PlainTypedef.operation, Consulted.apply, PlainTypedef.graph] at hrun ⊢
      rw [hrun]
    rw [hnext]
    exact hflat

end ScopeGraph

end BindingTypes
