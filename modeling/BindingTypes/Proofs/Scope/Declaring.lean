import BindingTypes.Proofs.Scope.Edit
import Mathlib.Logic.Relation

namespace BindingTypes

/-- The name that an edit declares in the current scope. -/
def Edit.declared? : Edit → Option Text
  | .define _ name => some name
  | .defineClass name => some name
  | .declareUsing qualified => some (QualifiedName.split qualified).2
  | _ => none

namespace ScopeGraph

variable {g g' : ScopeGraph} {id : ScopeId} {n : Text} {s s' : Memory}

/-- A scope searches another one for the scopes inside it. -/
def UsesScope (g : ScopeGraph) (a b : ScopeId) : Prop := b ∈ (g.scope a).usings

/-- The first answer of a search is an answer of one of its parts. -/
theorem firstUnvisited_hit {search : List ScopeId → ScopeId → Option ScopeId × List ScopeId}
    {ids visited visited' : List ScopeId} {hit : ScopeId}
    (h : firstUnvisited search ids visited = (some hit, visited')) :
    ∃ i ∈ ids, ∃ v v', search v i = (some hit, v') := by
  induction ids generalizing visited with
  | nil => cases h
  | cons i ids ih =>
    have hrest : ∀ {visited}, firstUnvisited search ids visited = (some hit, visited') →
        ∃ i' ∈ i :: ids, ∃ v v', search v i' = (some hit, v') := by
      intro visited h
      obtain ⟨i', hi', hs⟩ := ih h
      exact ⟨i', List.mem_cons_of_mem _ hi', hs⟩
    unfold firstUnvisited at h
    split at h
    · exact hrest h
    · split at h
      · rename_i hit' v' hs
        cases h
        exact ⟨i, List.mem_cons_self, _, _, hs⟩
      · exact hrest h

/-- Scopes are found by their names, in the scopes that are used. -/
theorem findWithin_hit {wanted : Text} {fuel : Nat} {visited visited' : List ScopeId}
    {hit : ScopeId} (h : g.findWithin wanted fuel visited id = (some hit, visited')) :
    ∃ s, Relation.ReflTransGen g.UsesScope id s ∧ g.byName.get? (g.nameIn s wanted) = some hit := by
  induction fuel generalizing visited visited' id hit with
  | zero => cases h
  | succ fuel ih =>
    unfold findWithin at h
    split at h
    · rename_i hit' hk
      cases h
      exact ⟨id, .refl, hk⟩
    · obtain ⟨i, hi, v, v', hs⟩ := firstUnvisited_hit h
      obtain ⟨s, hreach, hk⟩ := ih hs
      exact ⟨s, .head hi hreach, hk⟩

theorem findOutward_hit {wanted : Text} {ids visited : List ScopeId} {hit : ScopeId}
    (h : g.findOutward wanted ids visited = some hit) :
    ∃ a ∈ ids, ∃ s, Relation.ReflTransGen g.UsesScope a s ∧
      g.byName.get? (g.nameIn s wanted) = some hit := by
  induction ids generalizing visited with
  | nil => cases h
  | cons i ids ih =>
    unfold findOutward at h
    split at h
    · rename_i hit' v' hs
      cases h
      exact ⟨i, List.mem_cons_self, findWithin_hit hs⟩
    · obtain ⟨a, ha, hfound⟩ := ih h
      exact ⟨a, List.mem_cons_of_mem _ ha, hfound⟩

theorem findScopeVia_hit {reuse : Reuse Remembering} {s s' : Memory} {hit : ScopeId}
    (h : (g.findScopeVia reuse n).run s = .ok (some hit, s')) :
    ∃ k, g.byName.get? k = some hit := by
  have hnamed : ∀ {plain s₁}, (pure (g.findNamed g.current plain) : Remembering _).run s₁ =
      .ok (some hit, s') → ∃ k, g.byName.get? k = some hit := by
    intro plain s₁ hp
    obtain ⟨hfound, -⟩ := run_pure_eq_ok hp
    obtain ⟨-, -, s, -, hk⟩ := findOutward_hit hfound.symm
    exact ⟨_, hk⟩
  unfold findScopeVia findScopeFrom at h
  dsimp only at h
  split at h
  · obtain ⟨plain, s₁, -, h⟩ := run_bind_eq_ok h
    exact hnamed h
  · obtain ⟨plain, s₁, -, h⟩ := run_bind_eq_ok h
    exact hnamed h

section Keeps

variable {P : ScopeGraph → Prop}
variable (hinsert : ∀ g id e, P g → P (g.insertTypedef id n e))
variable (hstand : ∀ g k target, P g → g.byName.get? k = some target → P (g.standIn n target))

include hinsert hstand in
theorem defineVia_keeps {type : CType} {r : Except TypedefError ScopeGraph} (hp : P g)
    (h : (g.defineVia .always type n).run s = .ok (r, s')) : P (g.accept r) := by
  obtain ⟨e, -, rfl, -⟩ | ⟨-, -, rfl, -⟩ | ⟨-, found, g', hfound, rfl, rfl⟩ := defineVia_cases h
  · exact hp
  · exact hp
  · cases found with
    | none => exact hinsert g _ _ hp
    | some target =>
      obtain ⟨k, hk⟩ := findScopeVia_hit hfound
      exact hinsert _ _ _ (hstand g k target hp hk)

include hinsert in
theorem defineClass_keeps (hp : P g) : P (g.accept (g.defineClass n)) := by
  unfold defineClass
  split
  · exact hp
  · exact hinsert g _ _ hp

include hinsert hstand in
theorem declareUsingVia_keeps {qualified : Text} {r : Except TypedefError ScopeGraph}
    (hn : (QualifiedName.split qualified).2 = n) (hp : P g)
    (h : (g.declareUsingVia .always qualified).run s = .ok (r, s')) : P (g.accept r) := by
  obtain ⟨e, rfl, -⟩ | ⟨scope, base, hsplit, -, g₁, step, s₁, hg₁, -, hdone⟩ :=
    declareUsingVia_cases h
  · exact hp
  rw [hsplit] at hn
  subst hn
  have hp₁ : P g₁ := hg₁ ▸ hinsert g _ _ hp
  obtain ⟨-, rfl, -⟩ | ⟨id, -, -, target, s₂, holder, g₂, htarget, -, hg₂, rfl⟩ := hdone
  · exact hp₁
  -- a holder that learns the name is found under the names it was found under before
  have hlearned : P g₂ ∧ g₂.byName = g₁.byName := hg₂ ▸ learned_keeps
    (P := fun g => P g ∧ g.byName = g₁.byName) holder ⟨hp₁, rfl⟩
    fun id => ⟨hinsert g₁ id _ hp₁, rfl⟩
  cases target with
  | none => exact hlearned.1
  | some target =>
    obtain ⟨k, hk⟩ := findScopeVia_hit htarget
    exact hstand g₂ k target hlearned.1 (hlearned.2 ▸ hk)

include hinsert hstand in
/-- Every declaration comes down to entries under the declared name and stand-ins of that name for
scopes that are found. -/
theorem declaration_keeps {e : Edit} (hn : e.declared? = some n) (hp : P g)
    (h : (g.editVia .always e).run s = .ok (g', s')) : P g' := by
  cases e with
  | define type name =>
    cases hn
    obtain ⟨r, s₁, hr, h⟩ := run_bind_eq_ok h
    obtain ⟨rfl, -⟩ := run_pure_eq_ok h
    exact defineVia_keeps hinsert hstand hp hr
  | defineClass name =>
    cases hn
    obtain ⟨rfl, -⟩ := run_pure_eq_ok h
    exact defineClass_keeps hinsert hp
  | declareUsing qualified =>
    obtain ⟨r, s₁, hr, h⟩ := run_bind_eq_ok h
    obtain ⟨rfl, -⟩ := run_pure_eq_ok h
    exact declareUsingVia_keeps hinsert hstand (Option.some.inj hn) hp hr
  | enter name => cases hn
  | leave => cases hn
  | select id => cases hn
  | inheritFrom id => cases hn
  | useNamespace id => cases hn
  | aliasName name id => cases hn
  | attachSymbols symbols => cases hn
  | undefine name => cases hn

end Keeps

end ScopeGraph

end BindingTypes
