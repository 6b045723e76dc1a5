import BindingTypes.Proofs.Scope.Declaring
import BindingTypes.Proofs.Scope.Permitted

namespace BindingTypes.ScopeGraph

/-- The scopes after permitted edits, whatever is remembered between them. -/
inductive ReachedBy (permits : ScopeGraph → Edit → Prop) : ScopeGraph → Prop
  | new (budget : Nat) : ReachedBy permits (new budget)
  | edit {g g' : ScopeGraph} {e : Edit} {s s' : Memory} (hg : ReachedBy permits g)
      (he : permits g e) (h : (g.editVia .always e).run s = .ok (g', s')) : ReachedBy permits g'

/-- An edit that names scopes only by numbers that were given out. -/
def NamesGivenOut (g : ScopeGraph) : Edit → Prop
  | .select id => ∀ i, id = some i → i < g.scopes.length
  | .inheritFrom id => id < g.scopes.length
  | .useNamespace id => id < g.scopes.length
  | .aliasName _ id => id < g.scopes.length
  | _ => True

/-- Every number that the graph holds was given out. -/
structure InRange (g : ScopeGraph) : Prop where
  current : g.current < g.scopes.length
  parent : ∀ id p, (g.scope id).parent = some p → p < g.scopes.length
  inherits : ∀ id, ∀ i ∈ (g.scope id).inherits, i < g.scopes.length
  usings : ∀ id, ∀ i ∈ (g.scope id).usings, i < g.scopes.length
  found : ∀ k id, g.byName.get? k = some id → id < g.scopes.length

variable {permits : ScopeGraph → Edit → Prop} {g g' : ScopeGraph} {id : ScopeId} {n : Text}

theorem ReachedBy.editAfresh {e : Edit} (hg : ReachedBy permits g) (he : permits g e) :
    ReachedBy permits (g.editAfresh e) :=
  editAfresh_keeps hg fun hrun => hg.edit he hrun

theorem length_modifyScope (g : ScopeGraph) (id : ScopeId) (f : Scope → Scope) :
    (g.modifyScope id f).scopes.length = g.scopes.length := List.length_modify f g.scopes id

theorem length_inheritFrom (g : ScopeGraph) (id : ScopeId) :
    (g.inheritFrom id).scopes.length = g.scopes.length := by
  unfold inheritFrom
  split
  · rfl
  · exact length_modifyScope g g.current _

/-- A scope that opens is one that is found again, or a new one. -/
theorem enter_cases (g : ScopeGraph) (name : Option Text) :
    (∃ i, g.reopened? (name.getD unnamed) = some i ∧ g.enter name = (i, touch { g with current := i })) ∨
      g.enter name = (g.scopes.length, g.opened (name.getD unnamed)) := by
  unfold enter
  cases hr : g.reopened? (name.getD unnamed) with
  | some i =>
    refine Or.inl ⟨i, rfl, ?_⟩
    simp only [hr]
  | none =>
    refine Or.inr ?_
    simp only [hr]
    rfl

theorem get?_of_reopened? {i : ScopeId} (h : g.reopened? n = some i) :
    g.byName.get? (g.nameIn g.current n) = some i := by
  unfold reopened? at h
  obtain ⟨-, -, h⟩ := Option.bind_eq_some_iff.mp h
  obtain ⟨j, hj, h⟩ := Option.bind_eq_some_iff.mp h
  obtain ⟨-, -, h⟩ := Option.bind_eq_some_iff.mp h
  cases h
  exact hj

theorem parent_of_reopened? {i : ScopeId} (h : g.reopened? n = some i) :
    (g.scope i).parent = some g.current := by
  unfold reopened? at h
  obtain ⟨-, -, h⟩ := Option.bind_eq_some_iff.mp h
  obtain ⟨j, -, h⟩ := Option.bind_eq_some_iff.mp h
  obtain ⟨u, hguard, h⟩ := Option.bind_eq_some_iff.mp h
  cases h
  refine Decidable.byContradiction fun hne => ?_
  have hfails : (guard ((g.scope i).parent = some g.current) : Option Unit) = none := if_neg hne
  rw [hfails] at hguard
  cases hguard

theorem length_le_enter (g : ScopeGraph) (name : Option Text) :
    g.scopes.length ≤ (g.enter name).2.scopes.length := by
  rcases g.enter_cases name with ⟨i, -, h⟩ | h
  · rw [h]
    exact Nat.le_refl _
  · rw [h, length_opened]
    exact Nat.le_succ _

theorem inRange_new (budget : Nat) : InRange (new budget) := by
  have hscope : ∀ id, (new budget).scope id = {} := by
    intro id
    cases id with
    | zero => rfl
    | succ id => rfl
  refine ⟨Nat.zero_lt_one, fun id p hp => ?_, fun id i hi => ?_, fun id i hi => ?_, fun k id hk => ?_⟩
  · rw [hscope] at hp
    cases hp
  · rw [hscope] at hi
    cases hi
  · rw [hscope] at hi
    cases hi
  · exact ((wellPlaced_new ⟨[], by simp⟩ budget).keys k id hk).1

namespace InRange

/-- A change of tables and names, without new numbers. -/
theorem of_scopes (hg : InRange g) (hs : g'.scopes = g.scopes) (hb : g'.byName = g.byName)
    (hc : g'.current < g.scopes.length) : InRange g' := by
  have hscope : ∀ id, g'.scope id = g.scope id := fun id => by simp only [scope, hs]
  constructor
  case current => exact hs ▸ hc
  case parent => exact fun id p hp => hs ▸ hg.parent id p (hscope id ▸ hp)
  case inherits => exact fun id i hi => hs ▸ hg.inherits id i (hscope id ▸ hi)
  case usings => exact fun id i hi => hs ▸ hg.usings id i (hscope id ▸ hi)
  case found => exact fun k id hk => hs ▸ hg.found k id (hb ▸ hk)

variable (hg : InRange g)
include hg

theorem modifyScope {f : Scope → Scope} (hp : ∀ s, (f s).parent = s.parent)
    (hi : ∀ s, ∀ i ∈ (f s).inherits, i ∈ s.inherits ∨ i < g.scopes.length)
    (hu : ∀ s, ∀ i ∈ (f s).usings, i ∈ s.usings ∨ i < g.scopes.length) :
    InRange (g.modifyScope id f) := by
  have hlength := length_modifyScope g id f
  constructor
  case current => exact hlength ▸ hg.current
  case parent =>
    intro j p hj
    rw [hlength]
    rw [scope_modifyScope] at hj
    split at hj
    · exact hg.parent j p (hp _ ▸ hj)
    · exact hg.parent j p hj
  case inherits =>
    intro j i hj
    rw [hlength]
    rw [scope_modifyScope] at hj
    split at hj
    · exact (hi _ i hj).elim (hg.inherits j i) fun h => h
    · exact hg.inherits j i hj
  case usings =>
    intro j i hj
    rw [hlength]
    rw [scope_modifyScope] at hj
    split at hj
    · exact (hu _ i hj).elim (hg.usings j i) fun h => h
    · exact hg.usings j i hj
  case found => exact fun k j hk => hlength ▸ hg.found k j hk

/-- A change that brings neither a place nor an inherited scope. -/
theorem change {f : Scope → Scope} (hp : ∀ s, (f s).parent = s.parent)
    (hi : ∀ s, (f s).inherits = s.inherits) (hu : ∀ s, (f s).usings = s.usings) :
    InRange (touch (g.modifyScope id f)) :=
  (hg.modifyScope hp (fun s _ h => Or.inl (hi s ▸ h)) fun s _ h => Or.inl (hu s ▸ h)).of_scopes
    rfl rfl (length_modifyScope g id f ▸ hg.current)

theorem inheritFrom (hid : id < g.scopes.length) : InRange (g.inheritFrom id) := by
  unfold ScopeGraph.inheritFrom
  split
  · exact hg
  · refine (hg.modifyScope (f := fun s => { s with inherits := s.inherits ++ [id] })
      (fun _ => rfl) (fun s i hi => ?_) fun s i hi => Or.inl hi).of_scopes rfl rfl
      (length_modifyScope g g.current _ ▸ hg.current)
    rcases List.mem_append.mp hi with hi | hi
    · exact Or.inl hi
    · exact Or.inr (List.mem_singleton.mp hi ▸ hid)

theorem useNamespace (hid : id < g.scopes.length) : InRange (g.useNamespace id) := by
  have hi := hg.inheritFrom hid
  have hid' : id < (g.inheritFrom id).scopes.length := length_inheritFrom g id ▸ hid
  unfold ScopeGraph.useNamespace
  generalize g.inheritFrom id = g₁ at hi hid' ⊢
  dsimp only
  split
  · exact hi.of_scopes rfl rfl hi.current
  · refine (hi.modifyScope (f := fun s => { s with usings := s.usings ++ [id] })
      (fun _ => rfl) (fun s i hi => Or.inl hi) fun s i hm => ?_).of_scopes rfl rfl
      (length_modifyScope g₁ g₁.current _ ▸ hi.current)
    rcases List.mem_append.mp hm with hm | hm
    · exact Or.inl hm
    · exact Or.inr (List.mem_singleton.mp hm ▸ hid')

theorem opened (n : Text) : InRange (g.opened n) := by
  have hlast : g.scopes.length < (g.opened n).scopes.length :=
    length_opened g n ▸ Nat.lt_succ_self _
  have hmore : ∀ {i : ScopeId}, i < g.scopes.length → i < (g.opened n).scopes.length :=
    fun hi => Nat.lt_trans hi hlast
  constructor
  case current => exact hlast
  case parent =>
    intro id p hp
    rw [scope_opened] at hp
    split at hp
    · cases hp
      exact hmore hg.current
    · exact hmore (hg.parent id p hp)
  case inherits =>
    intro id i hi
    rw [scope_opened] at hi
    split at hi
    · cases hi
    · exact hmore (hg.inherits id i hi)
  case usings =>
    intro id i hi
    rw [scope_opened] at hi
    split at hi
    · cases hi
    · exact hmore (hg.usings id i hi)
  case found =>
    intro k id hk
    rw [get?_byName_opened] at hk
    split at hk
    · cases hk
      exact hlast
    · exact hmore (hg.found k id hk)

theorem enter (name : Option Text) : InRange (g.enter name).2 := by
  rcases g.enter_cases name with ⟨i, hi, h⟩ | h
  · rw [h]
    exact hg.of_scopes rfl rfl (hg.found _ i (get?_of_reopened? hi))
  · rw [h]
    exact hg.opened _

theorem leave : InRange g.leave.2 :=
  leave_keeps hg fun p hp => hg.of_scopes rfl rfl (hg.parent _ p hp)

theorem aliasName (n : Text) (hid : id < g.scopes.length) : InRange (g.aliasName n id) where
  current := hg.current
  parent := hg.parent
  inherits := hg.inherits
  usings := hg.usings
  found k j hk := by
    have hk' : (g.byName.insert (g.nameIn g.current n) id).get? k = some j := hk
    rw [Table.get?_insert] at hk'
    split at hk'
    · cases hk'
      exact hid
    · exact hg.found k j hk'

theorem standIn (n : Text) (hid : id < g.scopes.length) : InRange (g.standIn n id) := by
  have hopen := hg.enter (some n)
  have hle := g.length_le_enter (some n)
  unfold ScopeGraph.standIn
  generalize g.enter (some n) = r at hopen hle ⊢
  dsimp only
  have halias : InRange (r.2.modifyScope r.1 fun s => { s with isAlias := true }) :=
    hopen.modifyScope (fun _ => rfl) (fun _ _ h => Or.inl h) fun _ _ h => Or.inl h
  refine (halias.inheritFrom ?_).leave
  rw [length_modifyScope]
  exact Nat.lt_of_lt_of_le hid hle

theorem insertTypedef (n : Text) (e : TypedefEntry) : InRange (g.insertTypedef id n e) :=
  hg.change (fun _ => rfl) (fun _ => rfl) fun _ => rfl

theorem undefine (n : Text) : InRange (g.undefine n).2 := by
  unfold ScopeGraph.undefine
  split
  · exact hg.change (fun _ => rfl) (fun _ => rfl) fun _ => rfl
  · exact hg

theorem declaration {e : Edit} {s s' : Memory} (he : e.declared? = some n)
    (h : (g.editVia .always e).run s = .ok (g', s')) : InRange g' :=
  declaration_keeps (fun _ _ _ hg => hg.insertTypedef n _)
    (fun _ k target hg hk => hg.standIn n (hg.found k target hk)) he hg h

theorem edit {e : Edit} {s s' : Memory} (he : NamesGivenOut g e)
    (h : (g.editVia .always e).run s = .ok (g', s')) : InRange g' := by
  cases e with
  | enter name =>
    obtain ⟨rfl, -⟩ := run_pure_eq_ok h
    exact hg.enter name
  | leave =>
    obtain ⟨rfl, -⟩ := run_pure_eq_ok h
    exact hg.leave
  | select id =>
    obtain ⟨rfl, -⟩ := run_pure_eq_ok h
    refine hg.of_scopes rfl rfl ?_
    cases id with
    | none => exact Nat.lt_of_le_of_lt (Nat.zero_le _) hg.current
    | some i => exact he i rfl
  | inheritFrom id =>
    obtain ⟨rfl, -⟩ := run_pure_eq_ok h
    exact hg.inheritFrom he
  | useNamespace id =>
    obtain ⟨rfl, -⟩ := run_pure_eq_ok h
    exact hg.useNamespace he
  | aliasName name id =>
    obtain ⟨rfl, -⟩ := run_pure_eq_ok h
    exact hg.aliasName name he
  | attachSymbols symbols =>
    obtain ⟨rfl, -⟩ := run_pure_eq_ok h
    exact hg.change (fun _ => rfl) (fun _ => rfl) fun _ => rfl
  | define type name => exact hg.declaration rfl h
  | defineClass name => exact hg.declaration rfl h
  | declareUsing qualified => exact hg.declaration rfl h
  | undefine name =>
    obtain ⟨rfl, -⟩ := run_pure_eq_ok h
    exact hg.undefine name

end InRange

/-- Where edits name scopes only by numbers that were given out, the graph holds no others. -/
theorem ReachedBy.inRange (h : ReachedBy NamesGivenOut g) : InRange g := by
  induction h with
  | new budget => exact inRange_new budget
  | edit _ he hrun ih => exact ih.edit he hrun

end BindingTypes.ScopeGraph
