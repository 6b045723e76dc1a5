import BindingTypes.Proofs.Scope.ClassScope

namespace BindingTypes.ScopeGraph

open Relation

/-- The search for `n` from `s` comes to the scope `c` before every declaration of `n`. -/
def MeetsFirst (g : ScopeGraph) (n : Text) (s c : ScopeId) : Prop :=
  ∃ turns, Route g.ways [] s turns c ∧
    ∀ turns' d, Route g.ways [] s turns' d → g.Defines n d → turns ≤ turns'

variable {g g' : ScopeGraph} {n m : Text} {e e' : TypedefEntry} {id s d target : ScopeId}

theorem scope_insertTypedef (g : ScopeGraph) (id : ScopeId) (n : Text) (e : TypedefEntry)
    (d : ScopeId) : (g.insertTypedef id n e).scope d = if id = d ∧ d < g.scopes.length then
      { g.scope d with typedefs := (g.scope d).typedefs.insert n e } else g.scope d :=
  scope_modifyScope g id d _

theorem get?_insertTypedef (hid : id < g.scopes.length) (n : Text) (e : TypedefEntry) (d : ScopeId)
    (m : Text) : ((g.insertTypedef id n e).scope d).typedefs.get? m =
      if d = id ∧ m = n then some e else (g.scope d).typedefs.get? m := by
  rw [scope_insertTypedef]
  by_cases hd : d = id
  · subst hd
    rw [if_pos ⟨rfl, hid⟩]
    simp only [Table.get?_insert, true_and]
  · rw [if_neg fun h => hd h.1.symm, if_neg fun h => hd h.1]

/-- Typedef tables apart, two graphs are the same. -/
structure SameButTables (g g' : ScopeGraph) : Prop where
  length : g'.scopes.length = g.scopes.length
  current : g'.current = g.current
  byName : g'.byName = g.byName
  name : ∀ id, g'.nameOf id = g.nameOf id
  ways : g'.ways = g.ways

namespace SameButTables

theorem refl (g : ScopeGraph) : SameButTables g g := ⟨rfl, rfl, rfl, fun _ => rfl, rfl⟩

theorem leads (h : SameButTables g g') : g'.Leads = g.Leads := by
  funext a b
  rw [← mem_ways, ← mem_ways, h.ways]

theorem nameIn (h : SameButTables g g') (id : ScopeId) (n : Text) :
    g'.nameIn id n = g.nameIn id n := by
  rw [ScopeGraph.nameIn, ScopeGraph.nameIn, h.name]

end SameButTables

theorem sameButTables_insertTypedef (g : ScopeGraph) (id : ScopeId) (n : Text) (e : TypedefEntry) :
    SameButTables g (g.insertTypedef id n e) := by
  refine ⟨length_modifyScope g id _, rfl, rfl, fun d => ?_, funext fun d => ?_⟩
  · rw [nameOf, scope_insertTypedef]
    split <;> rfl
  · rw [ways, ways, scope_insertTypedef]
    split <;> rfl

theorem ways_insertTypedef : (g.insertTypedef id n e).ways = g.ways :=
  (sameButTables_insertTypedef g id n e).ways

theorem defines_insertTypedef (hid : id < g.scopes.length) :
    (g.insertTypedef id n e).Defines m d ↔ d = id ∧ m = n ∨ g.Defines m d := by
  rw [Defines, Table.contains, get?_insertTypedef hid]
  split
  · rename_i h
    simp [h]
  · rename_i h
    simp [h, Defines, Table.contains]

/-- Other names mean what they meant. -/
theorem get?_insertTypedef_of_ne (hm : m ≠ n) (d : ScopeId) :
    ((g.insertTypedef id n e).scope d).typedefs.get? m = (g.scope d).typedefs.get? m := by
  rw [scope_insertTypedef]
  split
  · exact (Table.get?_insert _ _ _ _).trans (if_neg hm)
  · rfl

theorem lookup_insertTypedef_of_ne (hm : m ≠ n) (s : ScopeId) :
    (g.insertTypedef id n e).lookup s m = g.lookup s m := by
  refine Option.ext fun ⟨e', d⟩ => ?_
  simp only [lookup_eq_some_iff, ways_insertTypedef, Defines, Table.contains,
    get?_insertTypedef_of_ne hm]

/-- A new entry is found where its scope is met before every other declaration. -/
theorem lookup_insertTypedef_met (hid : id < g.scopes.length) (h : g.MeetsFirst n s id) :
    (g.insertTypedef id n e).lookup s n = some (e, id) := by
  obtain ⟨turns, hr, hbefore⟩ := h
  have hnew : (g.insertTypedef id n e).Defines n id :=
    (defines_insertTypedef hid).mpr (Or.inl ⟨rfl, rfl⟩)
  have hreach : ReflTransGen (g.insertTypedef id n e).Leads s id :=
    (sameButTables_insertTypedef g id n e).leads ▸ reaches_of_route hr
  obtain ⟨⟨e', d⟩, hfound⟩ := Option.isSome_iff_exists.mp (isSome_lookup_iff.mpr ⟨id, hreach, hnew⟩)
  obtain ⟨turns', hr', he', hfirst⟩ := lookup_eq_some_iff.mp hfound
  rw [ways_insertTypedef] at hr' hfirst
  rw [get?_insertTypedef hid] at he'
  by_cases hd : d = id
  · subst hd
    rw [if_pos ⟨rfl, rfl⟩] at he'
    rw [hfound, ← Option.some.inj he']
  · -- another declaration would be met by the very route that leads to `id`
    rw [if_neg fun h => hd h.1] at he'
    have hle := hbefore turns' d hr' (defines_iff.mpr ⟨e', he'⟩)
    cases le_antisymm hle (hfirst turns id hr hnew)
    exact absurd (hr'.unique hr) hd

theorem lookup_insertTypedef_not_met (hid : id < g.scopes.length) (h : ¬ g.MeetsFirst n s id)
    (hfound : g.lookup s n = some (e', d)) :
    (g.insertTypedef id n e).lookup s n = some (e', d) := by
  obtain ⟨turns, hr, he', hfirst⟩ := lookup_eq_some_iff.mp hfound
  have hd : d ≠ id := by
    rintro rfl
    exact h ⟨turns, hr, hfirst⟩
  refine lookup_eq_some_iff.mpr
    ⟨turns, ways_insertTypedef.symm ▸ hr, ?_, fun turns' d' hr' hd' => ?_⟩
  · rw [get?_insertTypedef hid, if_neg fun h => hd h.1, he']
  · rw [ways_insertTypedef] at hr'
    rcases (defines_insertTypedef hid).mp hd' with ⟨rfl, -⟩ | hd'
    · -- some declaration comes before this route to the new one
      by_contra hlt
      refine h ⟨turns', hr', fun turns₁ d₁ hr₁ hd₁ => ?_⟩
      exact le_trans (le_of_lt (lt_of_not_ge hlt)) (hfirst turns₁ d₁ hr₁ hd₁)
    · exact hfirst turns' d' hr' hd'

theorem current_enter_fst (g : ScopeGraph) (name : Option Text) :
    (g.enter name).2.current = (g.enter name).1 := by
  rcases g.enter_cases name with ⟨i, -, h⟩ | h
  · rw [h]
    rfl
  · rw [h]
    rfl

/-- A stand-in is a scope of the current one that inherits its target. -/
theorem standIn_eq (g : ScopeGraph) (n : Text) (target : ScopeId) :
    ∃ entered, SameApart (g.enter (some n)).2 entered ∧
      g.standIn n target = touch { entered with current := g.current } := by
  have hmarked : SameApart (g.enter (some n)).2 ((g.enter (some n)).2.modifyScope
      (g.enter (some n)).1 fun s => { s with isAlias := true }) := by
    rw [← current_enter_fst]
    have htouched := (SameApart.refl (g.enter (some n)).2).modifyCurrent
      (f := fun s => { s with isAlias := true }) (fun _ => rfl) (fun _ => rfl) fun _ => rfl
    exact { htouched with }
  have hsame := hmarked.inheritFrom target
  exact ⟨_, hsame, hsame.leave_eq⟩

theorem scope_standIn (hid : id < g.scopes.length) :
    ((g.standIn n target).scope id).typedefs = (g.scope id).typedefs ∧
      (g.standIn n target).nameOf id = g.nameOf id := by
  obtain ⟨entered, hsame, h⟩ := g.standIn_eq n target
  rw [h]
  exact hsame.old hid

/-- Only the scope that is entered for a stand-in changes. -/
theorem scope_standIn_of_ne (hid : id < g.scopes.length)
    (hother : g.byName.get? (g.nameIn g.current n) ≠ some id) :
    (g.standIn n target).scope id = g.scope id := by
  obtain ⟨entered, hsame, h⟩ := g.standIn_eq n target
  rw [h]
  show entered.scope id = _
  rcases g.enter_cases (some n) with ⟨i, hi, henter⟩ | henter
  · rw [henter] at hsame
    refine hsame.others id ?_
    rintro rfl
    exact hother (get?_of_reopened? hi)
  · rw [henter] at hsame
    exact (hsame.others id (Nat.ne_of_lt hid)).trans
      ((scope_opened g n id).trans (if_neg (Nat.ne_of_lt hid)))

/-- A search that does not come to the scope a stand-in is made of stays as it is. -/
theorem lookup_standIn (hg : InRange g) (hs : s < g.scopes.length)
    (hapart : ∀ i, g.byName.get? (g.nameIn g.current n) = some i → ¬ ReflTransGen g.Leads s i) :
    (g.standIn n target).lookup s m = g.lookup s m :=
  lookup_eq_of_reached fun d hd =>
    scope_standIn_of_ne (hg.reaches_lt hs hd) fun hname => hapart d hname hd

end BindingTypes.ScopeGraph
