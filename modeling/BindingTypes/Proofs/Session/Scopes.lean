import BindingTypes.Proofs.Registry.Edit
import BindingTypes.Proofs.Scope.ClassScope
import BindingTypes.Proofs.Scope.InRange
import BindingTypes.Proofs.Session.Failure

namespace BindingTypes

/-- What is kept by a monadic filter is what some element of the list gives. -/
theorem exists_of_mem_filterMapM {α β : Type} {f : α → Except Fault (Option β)} {l : List α}
    {bs : List β} (h : l.filterMapM f = .ok bs) {b : β} (hb : b ∈ bs) :
    ∃ a ∈ l, f a = .ok (some b) := by
  induction l generalizing bs with
  | nil =>
    cases h
    cases hb
  | cons a l ih =>
    rw [List.filterMapM_cons] at h
    obtain ⟨r, hr, h⟩ := bind_eq_ok h
    cases r with
    | none =>
      obtain ⟨a', ha', hfa⟩ := ih h hb
      exact ⟨a', List.mem_cons_of_mem _ ha', hfa⟩
    | some b' =>
      obtain ⟨rest, hrest, h⟩ := bind_eq_ok h
      cases h
      rcases List.mem_cons.mp hb with rfl | hb
      · exact ⟨a, List.mem_cons_self, hr⟩
      · obtain ⟨a', ha', hfa⟩ := ih hrest hb
        exact ⟨a', List.mem_cons_of_mem _ ha', hfa⟩

namespace ScopeGraph

variable {g g' : ScopeGraph} {id : ScopeId} {n : Text} {permits : ScopeGraph → Edit → Prop}

theorem get?_of_findScope (h : g.findScope n = .ok (some id)) :
    ∃ k, g.byName.get? k = some id := by
  obtain ⟨⟨found, s⟩, hrun, rfl⟩ := map_eq_ok h
  exact findScopeVia_hit hrun

theorem InRange.findScope_lt (hg : InRange g) (h : g.findScope n = .ok (some id)) :
    id < g.scopes.length := by
  obtain ⟨k, hk⟩ := get?_of_findScope h
  exact hg.found k id hk

namespace ReachedBy

/-- An edit that asks nothing. -/
theorem edit_pure {e : Edit} (hg : ReachedBy permits g) (he : permits g e)
    (h : g.editVia .always e = pure g') : ReachedBy permits g' := by
  have hrun : (g.editVia .always e).run {} = .ok (g', {}) := by
    rw [h]
    rfl
  exact hg.edit he hrun

/-- A declaration that was accepted or refused. -/
theorem accept {e : Edit} {x : Remembering (Except TypedefError ScopeGraph)}
    {r : Except TypedefError ScopeGraph} (hg : ReachedBy permits g) (he : permits g e)
    (hedit : g.editVia .always e = x >>= fun r => pure (g.accept r))
    (h : Remembering.afresh x = .ok r) : ReachedBy permits (g.accept r) := by
  obtain ⟨⟨r', s⟩, hrun, rfl⟩ := map_eq_ok h
  have hdone : (g.editVia .always e).run {} = .ok (g.accept r', s) := by
    rw [hedit, StateT.run_bind, hrun]
    rfl
  exact hg.edit he hdone

theorem define {type : CType} {r : Except TypedefError ScopeGraph}
    (hg : ReachedBy NamesGivenOut g) (h : g.define type n = .ok r) :
    ReachedBy NamesGivenOut (g.accept r) := hg.accept (e := .define type n) trivial rfl h

theorem declareUsing {r : Except TypedefError ScopeGraph} (hg : ReachedBy NamesGivenOut g)
    (h : g.declareUsing n = .ok r) : ReachedBy NamesGivenOut (g.accept r) :=
  hg.accept (e := .declareUsing n) trivial rfl h

theorem defineClass (hg : ReachedBy NamesGivenOut g) (h : g.defineClass n = .ok g') :
    ReachedBy NamesGivenOut g' :=
  hg.edit_pure (e := .defineClass n) trivial (by rw [editVia, h]; rfl)

theorem inheritAll {ids : List ScopeId} (hg : ReachedBy NamesGivenOut g)
    (hids : ∀ id ∈ ids, id < g.scopes.length) :
    ReachedBy NamesGivenOut (ids.foldl inheritFrom g) := by
  induction ids generalizing g with
  | nil => exact hg
  | cons id ids ih =>
    refine ih (hg.edit_pure (e := .inheritFrom id) (hids id List.mem_cons_self) rfl) fun i hi => ?_
    rw [length_inheritFrom]
    exact hids i (List.mem_cons_of_mem _ hi)

end ReachedBy

end ScopeGraph

namespace Session

open ScopeGraph

variable {s s' : Session} {d : Directive} {o : Outcome} {location : Location}

/-- All that the declaration of a class does. -/
theorem declareClass_eq_ok {name : Text} {bases : List Text} {made : Option NodeId}
    (h : s.declareClass name bases location = .ok (.ok made, s')) :
    ∃ g own baseScopes known env, s.environment.graph.defineClass name = .ok g ∧
      g.qualify name = .ok own ∧ bases.filterMapM g.findScope = .ok baseScopes ∧
      bases.mapM g.qualify = .ok known ∧
      known.foldlM (fun env base => Environment.addSubtype env own base none)
        { s.environment with graph := g.withClassScope name baseScopes } = .ok env ∧
      s' = { s with environment := env } := by
  unfold declareClass at h
  split at h
  · cases h
  · rename_i g hg
    obtain ⟨own, hown, h⟩ := bind_eq_ok h
    obtain ⟨baseScopes, hscopes, h⟩ := bind_eq_ok h
    obtain ⟨known, hknown, h⟩ := bind_eq_ok h
    obtain ⟨env, henv, h⟩ := bind_eq_ok h
    cases h
    exact ⟨g, own, baseScopes, known, env, hg, hown, hscopes, hknown, henv, rfl⟩

theorem graph_addSubtypes {known : List Text} {own : Text} {env env' : Environment}
    (h : known.foldlM (fun env base => Environment.addSubtype env own base none) env = .ok env') :
    env'.graph = env.graph :=
  foldlM_keeps (P := fun e => e.graph = env.graph)
    (fun _ _ _ _ hp h => (Environment.graph_addSubtype h).trans hp) rfl h

theorem reachedBy_withClassScope {g : ScopeGraph} {name : Text} {bases : List Text}
    {baseScopes : List ScopeId} (hg : ReachedBy NamesGivenOut g)
    (h : bases.filterMapM g.findScope = .ok baseScopes) :
    ReachedBy NamesGivenOut (g.withClassScope name baseScopes) := by
  have hentered : ReachedBy NamesGivenOut (g.enter (some name)).2 :=
    hg.edit_pure (e := .enter (some name)) trivial rfl
  refine (hentered.inheritAll fun id hid => ?_).edit_pure (e := .leave) trivial rfl
  obtain ⟨base, -, hfound⟩ := exists_of_mem_filterMapM h hid
  exact Nat.lt_of_lt_of_le (hg.inRange.findScope_lt hfound) (g.length_le_enter (some name))

theorem reachedBy_declareClass {name : Text} {bases : List Text}
    (hs : ReachedBy NamesGivenOut s.environment.graph)
    (h : s.declareClass name bases location = .ok (o, s')) :
    ReachedBy NamesGivenOut s'.environment.graph := by
  cases o with
  | error u =>
    rcases declareClass_cases h with ⟨d, -, rfl⟩ | ⟨env, ho, -⟩
    · exact hs
    · cases ho
  | ok made =>
    obtain ⟨g, own, baseScopes, known, env, hg, -, hscopes, -, henv, rfl⟩ := declareClass_eq_ok h
    show ReachedBy NamesGivenOut env.graph
    rw [graph_addSubtypes henv]
    exact reachedBy_withClassScope (hs.defineClass hg) hscopes

theorem reachedBy_settle {r : Except TypedefError ScopeGraph}
    (hr : ReachedBy NamesGivenOut (s.environment.graph.accept r))
    (h : s.settle location r = (o, s')) : ReachedBy NamesGivenOut s'.environment.graph := by
  cases r with
  | error e =>
    cases h
    exact hr
  | ok g =>
    cases h
    exact hr

theorem reachedBy_instantiate {name shownName : Text} {args : List TemplateArgument}
    (hs : ReachedBy NamesGivenOut s.environment.graph)
    (h : s.instantiate name args shownName location = .ok (o, s')) :
    ReachedBy NamesGivenOut s'.environment.graph := by
  unfold instantiate at h
  obtain ⟨⟨result, engine, tree⟩, -, h⟩ := bind_eq_ok h
  cases result with
  | error e =>
    cases h
    exact hs
  | ok id =>
    obtain ⟨made, -, h⟩ := bind_eq_ok h
    dsimp only at h
    split at h
    · obtain ⟨⟨declared, u⟩, hu, h⟩ := bind_eq_ok h
      have hdeclared := reachedBy_declareClass (s := drainWarnings { s with engine, tree }) hs hu
      cases declared with
      | error e =>
        cases h
        exact hdeclared
      | ok v =>
        obtain ⟨attached, -, h⟩ := bind_eq_ok h
        cases h
        exact hdeclared
    · obtain ⟨⟨declared, u⟩, hu, h⟩ := bind_eq_ok h
      cases hu
      obtain ⟨attached, -, h⟩ := bind_eq_ok h
      cases h
      exact hs

theorem graph_withNode {id : NodeId} {step : Except Fault TemplateEngine}
    (h : s.withNode id location step = .ok (o, s')) :
    s'.environment.graph = s.environment.graph := by
  rcases withNode_cases h with ⟨d, -, rfl⟩ | ⟨engine, -, rfl⟩
  · rfl
  · rfl

/-- No directive names a scope by a number that was not given out. -/
theorem reachedBy_apply (hs : ReachedBy NamesGivenOut s.environment.graph)
    (h : s.apply d location = .ok (o, s')) : ReachedBy NamesGivenOut s'.environment.graph := by
  unfold apply at h
  dsimp only at h
  split at h
  · obtain ⟨r, hr, h⟩ := map_eq_ok h
    exact reachedBy_settle (s := { s with lastLocation := location }) (hs.define hr) h
  · exact reachedBy_declareClass (s := { s with lastLocation := location }) hs h
  · rename_i name
    cases h
    exact hs.edit_pure (e := .enter name) trivial rfl
  · cases h
    exact hs.edit_pure (e := .leave) trivial rfl
  · rename_i name
    obtain ⟨found, hf, h⟩ := map_eq_ok h
    cases h
    cases found with
    | none => exact hs
    | some id =>
      exact hs.edit_pure (e := .useNamespace id) (hs.inRange.findScope_lt hf) rfl
  · obtain ⟨r, hr, h⟩ := map_eq_ok h
    exact reachedBy_settle (s := { s with lastLocation := location }) (hs.declareUsing hr) h
  · rename_i name target
    obtain ⟨found, hf, h⟩ := map_eq_ok h
    cases h
    cases found with
    | none => exact hs
    | some id =>
      exact hs.edit_pure (e := .aliasName name id) (hs.inRange.findScope_lt hf) rfl
  · obtain ⟨environment, he, h⟩ := map_eq_ok h
    cases h
    show ReachedBy NamesGivenOut environment.graph
    rw [Environment.graph_addSubtype he]
    exact hs
  · obtain ⟨⟨r, environment⟩, hr, h⟩ := map_eq_ok h
    have hgraph : ReachedBy NamesGivenOut environment.graph := by
      rw [Environment.graph_remember hr]
      exact hs
    cases r with
    | ok v =>
      cases h
      exact hgraph
    | error e =>
      cases h
      exact hgraph
  · exact graph_withNode h ▸ hs
  · exact graph_withNode h ▸ hs
  · exact graph_withNode h ▸ hs
  · exact reachedBy_instantiate (s := { s with lastLocation := location }) hs h

/-- The scopes of a compilation name scopes only by numbers that were given out. -/
theorem reachedBy_of_reached (hs : s.Reached) :
    ReachedBy NamesGivenOut s.environment.graph := by
  induction hs with
  | new config budget => exact .new budget
  | declareIn hs h ih =>
    obtain ⟨⟨id, tree⟩, -, h⟩ := bind_eq_ok h
    cases h
    exact ih
  | apply hs h ih => exact reachedBy_apply ih h
  | replaceDescriptors hs h ih =>
    obtain ⟨⟨r, environment⟩, hr, h⟩ := map_eq_ok h
    obtain ⟨ms, hms⟩ := Environment.replaces_of_replaceDescriptors hr
    have hgraph : ReachedBy NamesGivenOut environment.graph :=
      Environment.replaces_keeps (P := fun e => ReachedBy NamesGivenOut e.graph)
        (fun _ _ _ _ _ hp _ => hp) ih hms
    cases r with
    | ok done =>
      cases h
      exact hgraph
    | error e =>
      cases h
      exact hgraph

end Session

end BindingTypes
