import BindingTypes.Proofs.Scope.SingleName

namespace BindingTypes.ScopeGraph

open CType Relation

variable {g g' g₁ g₂ : ScopeGraph} {q n m full scope : Text} {a id y : ScopeId}
  {entry e : TypedefEntry}

/-- The scopes `g₁` after what a using-declaration of `n` does besides its own entry, seen from the
scope `a`: all stays as it was, but that `n` may stand there for `full`. -/
structure Completed (g₁ g' : ScopeGraph) (n full : Text) (a : ScopeId) : Prop where
  current : g'.current = g₁.current
  name : ∀ id, id < g₁.scopes.length → g'.nameOf id = g₁.nameOf id
  kept : ∀ id m e, (g₁.scope id).typedefs.get? m = some e → (g'.scope id).typedefs.get? m = some e
  others : ∀ s m, ReflTransGen g₁.Leads a s → m ≠ n → g'.lookup s m = g₁.lookup s m
  answer : g'.lookup a n = g₁.lookup a n ∨ ∃ h, g'.lookup a n = some (⟨full, false⟩, h)

namespace Completed

theorem refl (g₁ : ScopeGraph) (n full : Text) (a : ScopeId) : Completed g₁ g₁ n full a :=
  ⟨rfl, fun _ _ => rfl, fun _ _ _ h => h, fun _ _ _ _ => rfl, Or.inl rfl⟩

/-- A further scope learns the full name. -/
theorem learn (hid : id < g₁.scopes.length) (hnone : ¬ g₁.Defines n id)
    (hfound : g₁.lookup a n = some (e, y)) :
    Completed g₁ (g₁.insertTypedef id n ⟨full, false⟩) n full a where
  current := rfl
  name d _ := (sameButTables_insertTypedef g₁ id n _).name d
  kept d m e he := by
    rw [get?_insertTypedef hid, if_neg]
    · exact he
    · rintro ⟨rfl, rfl⟩
      exact hnone (defines_iff.mpr ⟨e, he⟩)
  others s m _ hm := lookup_insertTypedef_of_ne hm s
  answer := by
    by_cases hmet : g₁.MeetsFirst n a id
    · exact Or.inr ⟨id, lookup_insertTypedef_met hid hmet⟩
    · rw [hfound]
      exact Or.inl (lookup_insertTypedef_not_met hid hmet hfound)

/-- A stand-in is made of a scope that the search does not come to. -/
theorem standIn (h : Completed g₁ g₂ n full a) (hsame : SameButTables g₁ g₂) (hg : InRange g₂)
    (ha : a < g₁.scopes.length)
    (hapart : ∀ i, g₁.byName.get? (g₁.nameIn g₁.current n) = some i → ¬ ReflTransGen g₁.Leads a i)
    (target : ScopeId) : Completed g₁ (g₂.standIn n target) n full a := by
  have hlookup : ∀ s m, ReflTransGen g₁.Leads a s →
      (g₂.standIn n target).lookup s m = g₂.lookup s m := by
    intro s m hs
    rw [← hsame.leads] at hs
    refine lookup_standIn hg (hg.reaches_lt (hsame.length ▸ ha) hs) fun i hi hsi => ?_
    rw [hsame.byName, hsame.current, hsame.nameIn] at hi
    exact hapart i hi (hsame.leads ▸ hs.trans hsi)
  refine ⟨(current_standIn g₂ n target).trans h.current, fun id hid => ?_, fun id m e he => ?_,
    fun s m hs hm => (hlookup s m hs).trans (h.others s m hs hm), ?_⟩
  · exact (scope_standIn (hsame.length ▸ hid)).2.trans (h.name id hid)
  · have hkept := h.kept id m e he
    rwa [(scope_standIn (lt_of_get? hkept)).1]
  · rw [hlookup a n .refl]
    exact h.answer

end Completed

theorem learned_cases (g : ScopeGraph) (holder : Option ScopeId) (n full : Text) :
    g.learned holder n full = g ∨ ∃ id ∈ holder, ¬ g.Defines n id ∧
      g.learned holder n full = g.insertTypedef id n ⟨full, false⟩ := by
  cases holder with
  | none => exact Or.inl rfl
  | some holder =>
    by_cases hown : g.Defines n holder
    · exact Or.inl (if_pos hown)
    · exact Or.inr ⟨holder, rfl, hown, if_neg hown⟩

/-- What a using-declaration makes of the scopes, where its own entry is in force when the name is
searched in `a`. -/
theorem declareUsing_completed (hg : InRange g) (ha : a < g.scopes.length)
    (hsplit : QualifiedName.split q = (some scope, n)) (hok : g.declareUsing q = .ok (.ok g'))
    (hlooks : (g.insertTypedef g.current n ⟨q, false⟩).LooksIn q n a)
    (hfound : (g.insertTypedef g.current n ⟨q, false⟩).lookup a n = some (entry, y))
    (hapart : ∀ i, g.byName.get? (g.nameIn g.current n) = some i → ¬ ReflTransGen g.Leads a i) :
    Completed (g.insertTypedef g.current n ⟨q, false⟩) g' n (g.nameIn y n) a ∧
      (g.nameOf y = [] → g' = g.insertTypedef g.current n ⟨q, false⟩) := by
  obtain ⟨⟨r, s'⟩, hrun, hr⟩ := map_eq_ok hok
  cases hr
  obtain ⟨e, hrefused, -⟩ | ⟨scope', n', hsplit', -, g₁, step, s₁, hg₁, hstep, hdone⟩ :=
    declareUsingVia_cases hrun
  · cases hrefused
  cases hsplit.symm.trans hsplit'
  have hsame := sameButTables_insertTypedef g g.current n ⟨q, false⟩
  have hrange : InRange (g.insertTypedef g.current n ⟨q, false⟩) := hg.insertTypedef n _
  rw [← hg₁] at hlooks hfound hsame hrange ⊢
  rw [← hsame.byName, ← hsame.current, ← hsame.nameIn, ← hsame.leads] at hapart
  have hfollows := follows_expansionVia (g := g₁) q {} (.empty g₁)
  rw [hstep] at hfollows
  cases Settles.unique (hlooks.expansionVia hfound) hfollows.1
  obtain ⟨hunnamed, hresult, -⟩ |
    ⟨id, hid, hnamed, target, s₂, holder, g₂, -, hholder, hg₂, hresult⟩ := hdone
  · cases hresult
    exact ⟨.refl _ n _ a, fun _ => rfl⟩
  cases hid
  rw [hsame.name] at hnamed
  rw [hsame.nameIn] at hg₂
  refine ⟨?_, fun hnil => absurd hnil hnamed⟩
  have hlearned : Completed g₁ g₂ n (g.nameIn y n) a ∧ SameButTables g₁ g₂ ∧ InRange g₂ := by
    rw [hg₂]
    rcases g₁.learned_cases holder n (g.nameIn y n) with hnothing | ⟨id, hmem, hnone, hinsert⟩
    · rw [hnothing]
      exact ⟨.refl g₁ n _ a, .refl g₁, hrange⟩
    · cases hmem
      obtain ⟨k, hk⟩ := findScopeVia_hit hholder
      rw [hinsert]
      exact ⟨.learn (hrange.found k id hk) hnone hfound, sameButTables_insertTypedef g₁ id n _,
        hrange.insertTypedef n _⟩
  obtain ⟨hcompleted, hsame₂, hrange₂⟩ := hlearned
  cases target with
  | none =>
    have hresult : g' = g₂ := Except.ok.inj hresult
    exact hresult ▸ hcompleted
  | some target =>
    have hresult : g' = g₂.standIn n target := Except.ok.inj hresult
    rw [hresult]
    exact hcompleted.standIn hsame₂ hrange₂ (hsame.length ▸ ha) hapart target

end BindingTypes.ScopeGraph
