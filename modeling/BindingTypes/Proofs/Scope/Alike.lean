import BindingTypes.Scope.Qualification

namespace BindingTypes.ScopeGraph

/-- The same scopes under the same names, seen from the same scope. -/
structure Alike (g g' : ScopeGraph) : Prop where
  scopes : g'.scopes = g.scopes
  byName : g'.byName = g.byName
  current : g'.current = g.current

/-- The same scopes, with another number of expansions allowed. -/
def withBudget (g : ScopeGraph) (n : Nat) : ScopeGraph := { g with budget := n }

@[simp] theorem budget_withBudget (g : ScopeGraph) (n : Nat) : (g.withBudget n).budget = n := rfl

theorem Alike.refl (g : ScopeGraph) : Alike g g := ⟨rfl, rfl, rfl⟩

theorem alike_withBudget (g : ScopeGraph) (n : Nat) : Alike g (g.withBudget n) := ⟨rfl, rfl, rfl⟩

variable {g g' : ScopeGraph}

theorem scope_eq_of_scopes (h : g'.scopes = g.scopes) (id : ScopeId) :
    g'.scope id = g.scope id := by
  simp [scope, h]

theorem outwardFrom_eq_of_scopes (h : g'.scopes = g.scopes) (n : Nat) (id : ScopeId) :
    g'.outwardFrom n id = g.outwardFrom n id := by
  induction n generalizing id with
  | zero => rfl
  | succ n ih =>
    simp only [outwardFrom, scope_eq_of_scopes h]
    cases (g.scope id).parent with
    | none => rfl
    | some parent => simp only [ih]

theorem outward_eq_of_scopes (h : g'.scopes = g.scopes) (id : ScopeId) :
    g'.outward id = g.outward id := by
  rw [outward, outward, h, outwardFrom_eq_of_scopes h]

theorem lookupAlong_eq_of_scopes (h : g'.scopes = g.scopes) (name : Text) (n : Nat)
    (path : List ScopeId) (id : ScopeId) :
    g'.lookupAlong name n path id = g.lookupAlong name n path id := by
  induction n generalizing path id with
  | zero => rfl
  | succ n ih =>
    have hf : g'.lookupAlong name n (id :: path) = g.lookupAlong name n (id :: path) :=
      funext fun i => ih (id :: path) i
    simp only [lookupAlong, scope_eq_of_scopes h, hf]

theorem lookup_eq_of_scopes (h : g'.scopes = g.scopes) (id : ScopeId) (name : Text) :
    g'.lookup id name = g.lookup id name := by
  rw [lookup, lookup, h, lookupAlong_eq_of_scopes h]

theorem nameOf_eq_of_scopes (h : g'.scopes = g.scopes) (id : ScopeId) :
    g'.nameOf id = g.nameOf id :=
  congrArg Scope.name (scope_eq_of_scopes h id)

theorem nameIn_eq_of_scopes (h : g'.scopes = g.scopes) (id : ScopeId) (name : Text) :
    g'.nameIn id name = g.nameIn id name := by
  rw [nameIn, nameIn, nameOf_eq_of_scopes h]

theorem leave_of_parent {p : ScopeId} (h : (g.scope g.current).parent = some p) :
    g.leave.2 = touch { g with current := p } := by
  unfold leave
  rw [h]

/-- What holds of the scopes and of a step outward holds after leaving. -/
theorem leave_keeps {P : ScopeGraph → Prop} (hg : P g)
    (h : ∀ p, (g.scope g.current).parent = some p → P (touch { g with current := p })) :
    P g.leave.2 := by
  cases hp : (g.scope g.current).parent with
  | some p => exact leave_of_parent hp ▸ h p hp
  | none =>
    unfold leave
    rwa [hp]

theorem qualifyExpansion_eq_of_scopes (h : g'.scopes = g.scopes) (id : ScopeId) (t : CType) :
    g'.qualifyExpansion id t = g.qualifyExpansion id t := by
  simp only [qualifyExpansion, nameOf_eq_of_scopes h, nameIn_eq_of_scopes h,
    lookup_eq_of_scopes h]

namespace Alike

theorem findWithin (h : Alike g g') (wanted : Text) (n : Nat) (visited : List ScopeId)
    (id : ScopeId) : g'.findWithin wanted n visited id = g.findWithin wanted n visited id := by
  induction n generalizing visited id with
  | zero => rfl
  | succ n ih =>
    have hf : g'.findWithin wanted n = g.findWithin wanted n :=
      funext fun v => funext fun i => ih v i
    simp only [ScopeGraph.findWithin, h.byName, nameIn_eq_of_scopes h.scopes,
      scope_eq_of_scopes h.scopes, hf]

theorem findOutward (h : Alike g g') (wanted : Text) (ids visited : List ScopeId) :
    g'.findOutward wanted ids visited = g.findOutward wanted ids visited := by
  induction ids generalizing visited with
  | nil => rfl
  | cons id ids ih =>
    simp only [ScopeGraph.findOutward, h.scopes, h.findWithin]
    rcases g.findWithin wanted (g.scopes.length + 1) visited id with ⟨hit, visited'⟩
    cases hit with
    | some hit => rfl
    | none => exact ih visited'

theorem findNamed (h : Alike g g') (start : ScopeId) (wanted : Text) :
    g'.findNamed start wanted = g.findNamed start wanted := by
  rw [ScopeGraph.findNamed, ScopeGraph.findNamed, outward_eq_of_scopes h.scopes, h.findOutward]

theorem lookupOwnSymbol (h : Alike g g') (name : Text) :
    g'.lookupOwnSymbol name = g.lookupOwnSymbol name := by
  simp only [ScopeGraph.lookupOwnSymbol, h.current, outward_eq_of_scopes h.scopes,
    scope_eq_of_scopes h.scopes]

theorem qualifyScopeName (h : Alike g g') (name : Text) :
    g'.qualifyScopeName name = g.qualifyScopeName name := by
  simp only [ScopeGraph.qualifyScopeName, h.current, h.byName, outward_eq_of_scopes h.scopes,
    nameIn_eq_of_scopes h.scopes]

theorem qualifyIdentifier (h : Alike g g') (glued : Bool) (name : Text) :
    g'.qualifyIdentifier glued name = g.qualifyIdentifier glued name := by
  simp only [ScopeGraph.qualifyIdentifier, h.lookupOwnSymbol, nameOf_eq_of_scopes h.scopes]

theorem qualifyExpression (h : Alike g g') (glued : Bool) (t : Text) :
    g'.qualifyExpression glued t = g.qualifyExpression glued t := by
  fun_induction g.qualifyExpression glued t with
  | case1 => rw [ScopeGraph.qualifyExpression]
  | case2 glued c cs hc ih => rw [ScopeGraph.qualifyExpression, if_pos hc, ih, h.qualifyIdentifier]
  | case3 glued c cs hc ih => rw [ScopeGraph.qualifyExpression, if_neg hc, ih]

end Alike

end BindingTypes.ScopeGraph
