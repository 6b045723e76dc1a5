import BindingTypes.Proofs.Scope.Answered
import BindingTypes.Scope.Typedef

namespace BindingTypes

/-- A change to the scopes of a program. -/
inductive Edit where
  | enter (name : Option Text)
  | leave
  | select (id : Option ScopeId)
  | inheritFrom (id : ScopeId)
  | useNamespace (id : ScopeId)
  | aliasName (name : Text) (id : ScopeId)
  | attachSymbols (symbols : Table Symbol)
  | define (type : CType) (name : Text)
  | defineClass (name : Text)
  | declareUsing (qualified : Text)
  | undefine (name : Text)
deriving DecidableEq

namespace ScopeGraph

/-- A refused declaration changes nothing. -/
def accept (g : ScopeGraph) : Except TypedefError ScopeGraph → ScopeGraph
  | .ok g' => g'
  | .error _ => g

def editVia {m : Type → Type} [Monad m] [MonadLiftT (Except Fault) m] (g : ScopeGraph)
    (reuse : Reuse m) : Edit → m ScopeGraph
  | .enter name => return (g.enter name).2
  | .leave => return g.leave.2
  | .select id => return (g.select id).2
  | .inheritFrom id => return g.inheritFrom id
  | .useNamespace id => return g.useNamespace id
  | .aliasName name id => return g.aliasName name id
  | .attachSymbols symbols => return g.attachSymbols symbols
  | .define type name => do return g.accept (← g.defineVia reuse type name)
  | .defineClass name => return g.accept (g.defineClass name)
  | .declareUsing qualified => do return g.accept (← g.declareUsingVia reuse qualified)
  | .undefine name => return (g.undefine name).2

/-- The second graph is the first one, or a later one. -/
def Advances (g g' : ScopeGraph) : Prop := g' = g ∨ g.generation < g'.generation

theorem Advances.generation_le {g g' : ScopeGraph} (h : g.Advances g') :
    g.generation ≤ g'.generation := by
  rcases h with rfl | h
  · exact Nat.le_refl _
  · exact Nat.le_of_lt h

variable (g : ScopeGraph)

@[simp] theorem generation_modifyScope (id : ScopeId) (f : Scope → Scope) :
    (g.modifyScope id f).generation = g.generation := rfl

theorem generation_lt_enter (name : Option Text) : g.generation < (g.enter name).2.generation := by
  unfold enter
  dsimp only
  split <;> exact Nat.lt_succ_self _

theorem advances_leave : g.Advances g.leave.2 :=
  leave_keeps (P := g.Advances) (Or.inl rfl) fun _ _ => Or.inr (Nat.lt_succ_self _)

theorem advances_inheritFrom (id : ScopeId) : g.Advances (g.inheritFrom id) := by
  unfold inheritFrom
  split
  · exact Or.inl rfl
  · exact Or.inr (Nat.lt_succ_self _)

theorem generation_lt_useNamespace (id : ScopeId) :
    g.generation < (g.useNamespace id).generation := by
  have hi := (g.advances_inheritFrom id).generation_le
  unfold useNamespace
  dsimp only
  split <;> exact Nat.lt_succ_of_le hi

theorem advances_undefine (name : Text) : g.Advances (g.undefine name).2 := by
  unfold undefine
  split
  · exact Or.inr (Nat.lt_succ_self _)
  · exact Or.inl rfl

theorem generation_lt_insertTypedef (id : ScopeId) (name : Text) (entry : TypedefEntry) :
    g.generation < (g.insertTypedef id name entry).generation := Nat.lt_succ_self _

theorem generation_lt_standIn (name : Text) (target : ScopeId) :
    g.generation < (g.standIn name target).generation := by
  have he := g.generation_lt_enter (some name)
  unfold standIn
  dsimp only
  have hi := ((g.enter (some name)).2.modifyScope (g.enter (some name)).1
    fun s => { s with isAlias := true }).advances_inheritFrom target
  have hl := advances_leave (((g.enter (some name)).2.modifyScope (g.enter (some name)).1
    fun s => { s with isAlias := true }).inheritFrom target)
  have := hi.generation_le
  have := hl.generation_le
  rw [generation_modifyScope] at *
  omega

theorem advances_defineClass (name : Text) : g.Advances (g.accept (g.defineClass name)) := by
  unfold defineClass
  split
  · exact Or.inl rfl
  · exact Or.inr (g.generation_lt_insertTypedef _ _ _)

end ScopeGraph

namespace Memory.RightFor

variable {s s' : Memory} {g g' : ScopeGraph}

theorem advance (h : s.RightFor g) (ha : g.Advances g') : s.RightFor g' := by
  rcases ha with rfl | ha
  · exact h
  · exact h.later ha

theorem of_run {α : Type} {x : Remembering α} {y : Nat → Except Fault α} {a : α}
    (h : s.RightFor g) (hx : g.Follows x y) (hr : x.run s = .ok (a, s')) : s'.RightFor g := by
  have hxs := hx s h
  rw [hr] at hxs
  exact hxs.2

end Memory.RightFor

namespace ScopeGraph

variable {g : ScopeGraph}

theorem follows_findScopeVia (name : Text) :
    g.Follows (g.findScopeVia .always name) fun n => (g.withBudget n).findScopeVia .never name :=
  g.follows.findScopeFrom (s := fun n => (g.withBudget n).resolveVia .never)
    (fun t => follows_resolveTo g.budget t) (fun n => g.alike_withBudget n) g.current name

theorem follows_expansionVia (t : CType) :
    g.Follows (g.expansionVia .always t) fun n => (g.withBudget n).expansionVia .never t :=
  g.follows.expandStep (s := fun n => (g.withBudget n).resolveVia .never)
    (fun n => g.alike_withBudget n) (fun t => follows_resolveTo g.budget t) t

theorem follows_lookupSymbolVia (name : Text) :
    g.Follows (g.lookupSymbolVia .always name)
      fun n => (g.withBudget n).lookupSymbolVia .never name :=
  g.follows.lookupSymbolVia (fun n => g.alike_withBudget n)
    (fun t => follows_resolveTo g.budget t) name

theorem run_bind_eq_ok {α β : Type} {x : Remembering α} {f : α → Remembering β} {s s' : Memory}
    {b : β} (h : (x >>= f).run s = .ok (b, s')) :
    ∃ a s₁, x.run s = .ok (a, s₁) ∧ (f a).run s₁ = .ok (b, s') := by
  rw [StateT.run_bind] at h
  cases hx : x.run s with
  | error e => rw [hx] at h; cases h
  | ok r => rw [hx] at h; exact ⟨r.1, r.2, rfl, h⟩

theorem run_pure_eq_ok {α : Type} {a b : α} {s s' : Memory}
    (h : (pure a : Remembering α).run s = .ok (b, s')) : b = a ∧ s' = s := by
  cases h
  exact ⟨rfl, rfl⟩

/-- What a typedef does: it is refused, or it is a name for itself, or it becomes an entry, behind a
stand-in for the scope that its type names. -/
theorem defineVia_cases {type : CType} {name : Text} {s s' : Memory}
    {r : Except TypedefError ScopeGraph} (h : (g.defineVia .always type name).run s = .ok (r, s')) :
    (∃ e, g.redefinition? name = some e ∧ r = .error e ∧ s' = s) ∨
    (g.redefinition? name = none ∧ type = name ∧ r = .ok g ∧ s' = s) ∨
    (g.redefinition? name = none ∧ ∃ found g',
      (g.findScopeVia .always type).run s = .ok (found, s') ∧
      g' = found.elim g (g.standIn name) ∧
      r = .ok (g'.insertTypedef g'.current name ⟨type, false⟩)) := by
  unfold defineVia at h
  split at h
  · rename_i e he
    obtain ⟨rfl, rfl⟩ := run_pure_eq_ok h
    exact Or.inl ⟨e, he, rfl, rfl⟩
  · rename_i hnone
    refine Or.inr ?_
    split at h
    · rename_i hself
      obtain ⟨rfl, rfl⟩ := run_pure_eq_ok h
      exact Or.inl ⟨hnone, hself, rfl, rfl⟩
    · obtain ⟨found, s₁, hfound, h⟩ := run_bind_eq_ok h
      obtain ⟨rfl, rfl⟩ := run_pure_eq_ok h
      refine Or.inr ⟨hnone, found, _, hfound, rfl, ?_⟩
      cases found <;> rfl

/-- The scopes after `holder` learned `n`, unless it declares it already. -/
def learned (g : ScopeGraph) (holder : Option ScopeId) (n full : Text) : ScopeGraph :=
  match holder with
  | some holder =>
    if (g.scope holder).typedefs.contains n then g else g.insertTypedef holder n ⟨full, false⟩
  | none => g

theorem learned_keeps {P : ScopeGraph → Prop} {n full : Text} (holder : Option ScopeId) (hp : P g)
    (hinsert : ∀ id, P (g.insertTypedef id n ⟨full, false⟩)) : P (g.learned holder n full) := by
  cases holder with
  | none => exact hp
  | some holder =>
    unfold learned
    dsimp only
    split
    · exact hp
    · exact hinsert holder

/-- What a using-declaration does: it is refused, or it becomes an entry. Where its name is found
in a scope with a name, its holder learns it, and a name for a scope becomes a scope. -/
theorem declareUsingVia_cases {qualified : Text} {s s' : Memory}
    {r : Except TypedefError ScopeGraph}
    (h : (g.declareUsingVia .always qualified).run s = .ok (r, s')) :
    (∃ e, r = .error e ∧ s' = s) ∨
    ∃ scope base, QualifiedName.split qualified = (some scope, base) ∧
      g.redefinition? base = none ∧
      ∃ g₁ step s₁, g₁ = g.insertTypedef g.current base ⟨qualified, false⟩ ∧
        (g₁.expansionVia .always qualified).run s = .ok (step, s₁) ∧
        ((∀ id ∈ step.scope, g₁.nameOf id = []) ∧ r = .ok g₁ ∧ s' = s₁ ∨
        ∃ id ∈ step.scope, g₁.nameOf id ≠ [] ∧ ∃ target s₂ holder g₂,
          (g₁.findScopeVia .always (g₁.nameIn id base)).run s₁ = .ok (target, s₂) ∧
          (g₁.findScopeVia .always scope).run s₂ = .ok (holder, s') ∧
          g₂ = g₁.learned holder base (g₁.nameIn id base) ∧
          r = .ok (target.elim g₂ (g₂.standIn base))) := by
  unfold declareUsingVia at h
  rcases hsplit : QualifiedName.split qualified with ⟨scope, base⟩
  rw [hsplit] at h
  cases scope with
  | none =>
    obtain ⟨rfl, rfl⟩ := run_pure_eq_ok h
    exact Or.inl ⟨_, rfl, rfl⟩
  | some scope =>
    dsimp only at h
    split at h
    · obtain ⟨rfl, rfl⟩ := run_pure_eq_ok h
      exact Or.inl ⟨_, rfl, rfl⟩
    · rename_i hnone
      refine Or.inr ⟨scope, base, rfl, hnone, ?_⟩
      generalize g.insertTypedef g.current base ⟨qualified, false⟩ = g₁ at h ⊢
      obtain ⟨defined, s₂, hdefined, h⟩ := run_bind_eq_ok h
      unfold definedName? at hdefined
      obtain ⟨step, s₁, hstep, hdefined⟩ := run_bind_eq_ok hdefined
      obtain ⟨rfl, rfl⟩ := run_pure_eq_ok hdefined
      refine ⟨g₁, step, _, rfl, hstep, ?_⟩
      split at h
      · rename_i hunnamed
        obtain ⟨rfl, rfl⟩ := run_pure_eq_ok h
        refine Or.inl ⟨fun id hid => ?_, rfl, rfl⟩
        refine Decidable.byContradiction fun hnamed => ?_
        have hnone := Option.bind_eq_none_iff.mp hunnamed id hid
        rw [if_neg hnamed] at hnone
        cases hnone
      · rename_i defined hnamed
        obtain ⟨id, hid, hdefined⟩ := Option.bind_eq_some_iff.mp hnamed
        split at hdefined
        · cases hdefined
        rename_i hne
        cases hdefined
        obtain ⟨target, s₂, htarget, h⟩ := run_bind_eq_ok h
        obtain ⟨holder, s₃, hholder, h⟩ := run_bind_eq_ok h
        obtain ⟨rfl, rfl⟩ := run_pure_eq_ok h
        refine Or.inr ⟨id, hid, hne, target, s₂, holder, _, htarget, hholder, rfl, ?_⟩
        cases target <;> cases holder <;> rfl

theorem rightFor_defineVia {type : CType} {name : Text} {s s' : Memory}
    {r : Except TypedefError ScopeGraph} (hs : s.RightFor g)
    (h : (g.defineVia .always type name).run s = .ok (r, s')) : s'.RightFor (g.accept r) := by
  obtain ⟨e, -, rfl, rfl⟩ | ⟨-, -, rfl, rfl⟩ | ⟨-, found, g', hfound, rfl, rfl⟩ := defineVia_cases h
  · exact hs
  · exact hs
  · have hs' := hs.of_run (follows_findScopeVia type) hfound
    cases found with
    | none => exact hs'.later (g.generation_lt_insertTypedef _ _ _)
    | some target =>
      have hlt := g.generation_lt_standIn name target
      exact hs'.later (Nat.lt_trans hlt (generation_lt_insertTypedef _ _ _ _))

theorem rightFor_declareUsingVia {qualified : Text} {s s' : Memory}
    {r : Except TypedefError ScopeGraph} (hs : s.RightFor g)
    (h : (g.declareUsingVia .always qualified).run s = .ok (r, s')) :
    s'.RightFor (g.accept r) := by
  obtain ⟨e, rfl, rfl⟩ | ⟨scope, base, -, -, g₁, step, s₁, hg₁, hstep, hdone⟩ :=
    declareUsingVia_cases h
  · exact hs
  have hlater : s.RightFor g₁ := hg₁ ▸ hs.later (g.generation_lt_insertTypedef _ _ _)
  have hs₁ := hlater.of_run (follows_expansionVia qualified) hstep
  obtain ⟨-, rfl, rfl⟩ | ⟨id, -, -, target, s₂, holder, g₂, htarget, hholder, hg₂, rfl⟩ := hdone
  · exact hs₁
  have hs₂ := hs₁.of_run (follows_findScopeVia _) htarget
  have hs' := hs₂.of_run (follows_findScopeVia _) hholder
  have hadvances : g₁.Advances g₂ := hg₂ ▸ learned_keeps holder (Or.inl rfl) fun id =>
    Or.inr (g₁.generation_lt_insertTypedef id _ _)
  cases target with
  | none => exact hs'.advance hadvances
  | some target =>
    have hlt := g₂.generation_lt_standIn base target
    exact hs'.later (Nat.lt_of_le_of_lt hadvances.generation_le hlt)

/-- After an edit the memory holds right answers for the new graph. -/
theorem rightFor_editVia {e : Edit} {s s' : Memory} {g' : ScopeGraph} (hs : s.RightFor g)
    (h : (g.editVia .always e).run s = .ok (g', s')) : s'.RightFor g' := by
  cases e with
  | enter name =>
    obtain ⟨rfl, rfl⟩ := run_pure_eq_ok h
    exact hs.later (g.generation_lt_enter name)
  | leave =>
    obtain ⟨rfl, rfl⟩ := run_pure_eq_ok h
    exact hs.advance g.advances_leave
  | select id =>
    obtain ⟨rfl, rfl⟩ := run_pure_eq_ok h
    exact hs.later (Nat.lt_succ_self _)
  | inheritFrom id =>
    obtain ⟨rfl, rfl⟩ := run_pure_eq_ok h
    exact hs.advance (g.advances_inheritFrom id)
  | useNamespace id =>
    obtain ⟨rfl, rfl⟩ := run_pure_eq_ok h
    exact hs.later (g.generation_lt_useNamespace id)
  | aliasName name id =>
    obtain ⟨rfl, rfl⟩ := run_pure_eq_ok h
    exact hs.later (Nat.lt_succ_self _)
  | attachSymbols symbols =>
    obtain ⟨rfl, rfl⟩ := run_pure_eq_ok h
    exact hs.later (Nat.lt_succ_self _)
  | define type name =>
    obtain ⟨r, s₁, hr, h⟩ := run_bind_eq_ok h
    obtain ⟨rfl, rfl⟩ := run_pure_eq_ok h
    exact rightFor_defineVia hs hr
  | defineClass name =>
    obtain ⟨rfl, rfl⟩ := run_pure_eq_ok h
    exact hs.advance (g.advances_defineClass name)
  | declareUsing qualified =>
    obtain ⟨r, s₁, hr, h⟩ := run_bind_eq_ok h
    obtain ⟨rfl, rfl⟩ := run_pure_eq_ok h
    exact rightFor_declareUsingVia hs hr
  | undefine name =>
    obtain ⟨rfl, rfl⟩ := run_pure_eq_ok h
    exact hs.advance (g.advances_undefine name)

end ScopeGraph

end BindingTypes
