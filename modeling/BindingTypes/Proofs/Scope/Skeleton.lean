import BindingTypes.Proofs.Scope.InRange

namespace BindingTypes.ScopeGraph

/-- The scopes with their names and places alone. -/
def skeleton (g : ScopeGraph) : ScopeGraph :=
  { g with scopes := g.scopes.map fun s => { name := s.name, parent := s.parent } }

/-- Every identifier may be declared. -/
def identifiers : Vocabulary := ⟨[], fun _ h => absurd h List.not_mem_nil⟩

/-- The scopes stand where their names say, and typedefs have plain names. -/
structure WellNamed (g : ScopeGraph) : Prop where
  placed : WellPlaced identifiers g.skeleton
  names : ∀ id, identifiers.Holds (g.scope id).typedefs

/-- An edit that declares identifiers. -/
def DeclaresIdentifiers (g : ScopeGraph) : Edit → Prop
  | .enter name => ∃ n, name = some n ∧ IsIdentifier n
  | .leave => True
  | .select id => ∀ i, id = some i → i < g.scopes.length
  | .inheritFrom id => id < g.scopes.length
  | .useNamespace id => id < g.scopes.length
  | .define _ n => IsIdentifier n
  | .defineClass n => IsIdentifier n
  | .undefine _ => True
  | _ => False

variable {g g' : ScopeGraph} {n : Text} {id : ScopeId}

theorem isName_identifiers : identifiers.IsName n ↔ IsIdentifier n :=
  and_iff_left List.not_mem_nil

theorem length_skeleton (g : ScopeGraph) : g.skeleton.scopes.length = g.scopes.length :=
  List.length_map _

theorem scope_skeleton (g : ScopeGraph) (id : ScopeId) :
    g.skeleton.scope id = { name := (g.scope id).name, parent := (g.scope id).parent } := by
  rw [scope, scope, skeleton, List.getElem?_map]
  cases g.scopes[id]? with
  | none => rfl
  | some s => rfl

theorem nameOf_skeleton (g : ScopeGraph) (id : ScopeId) : g.skeleton.nameOf id = g.nameOf id := by
  rw [nameOf, scope_skeleton]
  rfl

theorem nameIn_skeleton (g : ScopeGraph) (id : ScopeId) (n : Text) :
    g.skeleton.nameIn id n = g.nameIn id n := by
  rw [nameIn, nameIn, nameOf_skeleton]

theorem parent_skeleton (g : ScopeGraph) (id : ScopeId) :
    (g.skeleton.scope id).parent = (g.scope id).parent := by
  rw [scope_skeleton]

theorem reopened?_skeleton (g : ScopeGraph) (n : Text) :
    g.skeleton.reopened? n = g.reopened? n := by
  have hback : ∀ id, (guard ((g.skeleton.scope id).parent = some g.current) : Option Unit) =
      guard ((g.scope id).parent = some g.current) := fun id => by rw [parent_skeleton]
  unfold reopened?
  rw [nameIn_skeleton]
  exact congrArg (fun back : ScopeId → Option Unit => guard (n ≠ unnamed) >>= fun _ =>
    g.byName.get? (g.nameIn g.current n) >>= fun id => back id >>= fun _ => some id) (funext hback)

theorem skeleton_opened (g : ScopeGraph) (n : Text) :
    (g.opened n).skeleton = g.skeleton.opened n := by
  have hcurrent : g.skeleton.current = g.current := rfl
  simp only [opened, touch, nameIn_skeleton, hcurrent]
  simp [skeleton]

/-- What keeps names and places keeps the skeleton. -/
theorem samePlaces_skeleton (hl : g'.scopes.length = g.scopes.length) (hb : g'.byName = g.byName)
    (hname : ∀ id, (g'.scope id).name = (g.scope id).name)
    (hparent : ∀ id, (g'.scope id).parent = (g.scope id).parent) :
    SamePlaces g.skeleton g'.skeleton where
  length := by rw [length_skeleton, length_skeleton, hl]
  byName := hb
  name id := by rw [scope_skeleton, scope_skeleton, hname]
  parent id := by rw [parent_skeleton, parent_skeleton, hparent]
  rootInherits := by rw [scope_skeleton, scope_skeleton]

theorem wellNamed_new (budget : Nat) : WellNamed (new budget) where
  placed := wellPlaced_new identifiers budget
  names id n e h := by
    cases id with
    | zero => cases h
    | succ id => cases h

namespace WellNamed

variable (hg : WellNamed g)
include hg

theorem current_lt : g.current < g.scopes.length := length_skeleton g ▸ hg.placed.current

theorem parent_lt {p : ScopeId} (h : (g.scope id).parent = some p) : p < g.scopes.length :=
  length_skeleton g ▸ hg.placed.parent_lt ((parent_skeleton g id).trans h)

theorem rootName : g.nameOf globalScope = [] := (nameOf_skeleton g _).symm.trans hg.placed.rootName

theorem paths (id : ScopeId) : g.nameOf id = [] ∨ identifiers.IsPath (g.nameOf id) :=
  nameOf_skeleton g id ▸ hg.placed.paths id

theorem found (hid : id < g.scopes.length) : g.byName.get? (g.nameOf id) = some id :=
  nameOf_skeleton g id ▸ hg.placed.found id (length_skeleton g ▸ hid)

/-- Different scopes have different names. -/
theorem eq_of_nameOf {id' : ScopeId} (hid : id < g.scopes.length) (hid' : id' < g.scopes.length)
    (h : g.nameOf id = g.nameOf id') : id = id' := by
  refine hg.placed.eq_of_nameOf (length_skeleton g ▸ hid) (length_skeleton g ▸ hid') ?_
  rw [nameOf_skeleton, nameOf_skeleton, h]

/-- Another scope becomes the current one. -/
theorem goTo (hs : g'.scopes = g.scopes) (hb : g'.byName = g.byName)
    (hc : g'.current < g.scopes.length) : WellNamed g' := by
  have hscope : ∀ id, g'.scope id = g.scope id := fun id => by simp only [scope, hs]
  have hplaces : SamePlaces g.skeleton g'.skeleton :=
    samePlaces_skeleton (congrArg List.length hs) hb (fun id => by rw [hscope])
      fun id => by rw [hscope]
  refine ⟨hplaces.wellPlaced hg.placed (length_skeleton g ▸ hc), fun id => ?_⟩
  rw [hscope]
  exact hg.names id

/-- A scope changes, but not its name nor its place. -/
theorem modifyScope {f : Scope → Scope} (hname : ∀ s, (f s).name = s.name)
    (hparent : ∀ s, (f s).parent = s.parent)
    (htypedefs : identifiers.Holds (f (g.scope id)).typedefs) :
    WellNamed (g.modifyScope id f) := by
  have hplaces : SamePlaces g.skeleton (g.modifyScope id f).skeleton := by
    refine samePlaces_skeleton (length_modifyScope g id f) rfl (fun j => ?_) fun j => ?_
    · rw [scope_modifyScope]
      split <;> simp only [hname]
    · rw [scope_modifyScope]
      split <;> simp only [hparent]
  refine ⟨hplaces.wellPlaced hg.placed hg.placed.current, fun j => ?_⟩
  rw [scope_modifyScope]
  split
  · rename_i hj
    exact hj.1 ▸ htypedefs
  · exact hg.names j

theorem touch : WellNamed (touch g) := hg.goTo rfl rfl hg.current_lt

theorem inheritFrom (i : ScopeId) : WellNamed (g.inheritFrom i) := by
  unfold ScopeGraph.inheritFrom
  split
  · exact hg
  · exact (hg.modifyScope (f := fun s => { s with inherits := s.inherits ++ [i] })
      (fun _ => rfl) (fun _ => rfl) (hg.names g.current)).touch

theorem useNamespace (i : ScopeId) : WellNamed (g.useNamespace i) := by
  have hi := hg.inheritFrom i
  unfold ScopeGraph.useNamespace
  generalize g.inheritFrom i = g₁ at hi ⊢
  dsimp only
  split
  · exact hi.touch
  · exact (hi.modifyScope (f := fun s => { s with usings := s.usings ++ [i] })
      (fun _ => rfl) (fun _ => rfl) (hi.names g₁.current)).touch

theorem opened (hn : IsIdentifier n) (hfresh : g.reopened? n = none) : WellNamed (g.opened n) := by
  have hname := isName_identifiers.mpr hn
  refine ⟨?_, fun id => ?_⟩
  · rw [skeleton_opened]
    refine hg.placed.opened hname ?_
    rw [← hg.placed.reopened?_eq hname, reopened?_skeleton, hfresh]
  · rw [scope_opened]
    split
    · intro m e he
      cases he
    · exact hg.names id

theorem enter (hn : IsIdentifier n) : WellNamed (g.enter (some n)).2 := by
  unfold ScopeGraph.enter
  simp only [Option.getD_some]
  cases hr : g.reopened? n with
  | some i =>
    have hi := (hg.placed.keys _ i (get?_of_reopened? (reopened?_skeleton g n ▸ hr))).1
    exact hg.goTo rfl rfl (length_skeleton g ▸ hi)
  | none => exact hg.opened hn hr

theorem leave : WellNamed g.leave.2 :=
  leave_keeps hg fun _ hp => hg.goTo rfl rfl (hg.parent_lt hp)

theorem select {i : Option ScopeId} (hi : ∀ j, i = some j → j < g.scopes.length) :
    WellNamed (g.select i).2 := by
  refine hg.goTo rfl rfl ?_
  cases i with
  | none => exact Nat.lt_of_le_of_lt (Nat.zero_le _) hg.current_lt
  | some j => exact hi j rfl

theorem standIn (hn : IsIdentifier n) (target : ScopeId) : WellNamed (g.standIn n target) := by
  have hopen := hg.enter hn
  unfold ScopeGraph.standIn
  generalize g.enter (some n) = r at hopen ⊢
  have halias : WellNamed (r.2.modifyScope r.1 fun s => { s with isAlias := true }) :=
    hopen.modifyScope (fun _ => rfl) (fun _ => rfl) (hopen.names r.1)
  exact (halias.inheritFrom target).leave

theorem insertTypedef (hn : IsIdentifier n) (e : TypedefEntry) :
    WellNamed (g.insertTypedef id n e) := by
  refine (hg.modifyScope (f := fun s => { s with typedefs := s.typedefs.insert n e })
    (fun _ => rfl) (fun _ => rfl) fun m e' hm => ?_).touch
  rw [Table.get?_insert] at hm
  split at hm
  · rename_i hmn
    exact hmn ▸ isName_identifiers.mpr hn
  · exact hg.names id m e' hm

theorem undefine (n : Text) : WellNamed (g.undefine n).2 := by
  unfold ScopeGraph.undefine
  split
  · refine (hg.modifyScope (f := fun s => { s with typedefs := s.typedefs.erase n })
      (fun _ => rfl) (fun _ => rfl) fun m e hm => ?_).touch
    rw [Table.get?_erase] at hm
    split at hm
    · cases hm
    · exact hg.names g.current m e hm
  · exact hg

theorem declaration {e : Edit} {s s' : Memory} (hn : IsIdentifier n) (he : e.declared? = some n)
    (h : (g.editVia .always e).run s = .ok (g', s')) : WellNamed g' :=
  declaration_keeps (fun _ _ e hg => hg.insertTypedef hn e)
    (fun _ _ target hg _ => hg.standIn hn target) he hg h

theorem edit {e : Edit} {s s' : Memory} (he : DeclaresIdentifiers g e)
    (h : (g.editVia .always e).run s = .ok (g', s')) : WellNamed g' := by
  cases e with
  | enter name =>
    obtain ⟨n, rfl, hn⟩ := he
    obtain ⟨rfl, -⟩ := run_pure_eq_ok h
    exact hg.enter hn
  | leave =>
    obtain ⟨rfl, -⟩ := run_pure_eq_ok h
    exact hg.leave
  | select id =>
    obtain ⟨rfl, -⟩ := run_pure_eq_ok h
    exact hg.select he
  | inheritFrom id =>
    obtain ⟨rfl, -⟩ := run_pure_eq_ok h
    exact hg.inheritFrom id
  | useNamespace id =>
    obtain ⟨rfl, -⟩ := run_pure_eq_ok h
    exact hg.useNamespace id
  | define type name => exact hg.declaration he rfl h
  | defineClass name => exact hg.declaration he rfl h
  | undefine name =>
    obtain ⟨rfl, -⟩ := run_pure_eq_ok h
    exact hg.undefine name
  | aliasName name id => exact False.elim he
  | attachSymbols symbols => exact False.elim he
  | declareUsing qualified => exact False.elim he

end WellNamed

/-- Where identifiers are declared, scopes stand where their names say. -/
theorem ReachedBy.wellNamed (h : ReachedBy DeclaresIdentifiers g) : WellNamed g := by
  induction h with
  | new budget => exact wellNamed_new budget
  | edit _ he hrun ih => exact ih.edit he hrun

end BindingTypes.ScopeGraph
