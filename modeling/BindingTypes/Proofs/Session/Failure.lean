import Mathlib.Control.Monad.Basic
import BindingTypes.Proofs.Registry.Records
import BindingTypes.Proofs.Template.Frame
import BindingTypes.Session.Basic

namespace BindingTypes

namespace Environment

variable {env env' : Environment} {t : CType} {clientData : Option Text}

theorem remembered_recordNew {r : Registry} {e : Except RememberError Unit} {t' : CType}
    (h : env.recordNew t' clientData = .ok (e, r))
    (hk : env.registry.remembered.get? t = some clientData) :
    r.remembered.get? t = some clientData := by
  rcases recordNew_cases h with ⟨-, -, rfl⟩ | ⟨-, -, -, rfl⟩ | ⟨-, -, h⟩
  · exact hk
  · exact hk
  · obtain ⟨name, canonical, hr⟩ := recorded_of_record h
    rw [hr.remembered, Table.get?_insert]
    split
    · rfl
    · exact hk

/-- A type that cannot be remembered as asked is refused before anything is recorded if it is
misspelled, and is on record all the same if its client data are in conflict. -/
theorem remember_eq_error {e : RememberError}
    (h : env.remember t clientData = .ok (.error e, env')) :
    (isMisspelled t = true ∧ env' = env) ∨
    (isMisspelled t = false ∧ env.registry.remembered.get? t ≠ some clientData ∧
      env'.registry.remembered.get? t = some clientData ∧ env'.Denotes t) := by
  cases hm : isMisspelled t with
  | true =>
    rw [remember_misspelled hm] at h
    cases h
    exact Or.inl ⟨rfl, rfl⟩
  | false =>
    have hk : env.registry.remembered.get? t ≠ some clientData := fun hk => by
      rw [remember_known hm hk] at h
      cases h
    have hkept : ∀ {r : Registry} {e : Except RememberError Unit},
        env.record t clientData = .ok (e, r) → r.remembered.get? t = some clientData := by
      intro r e hr
      obtain ⟨name, canonical, hr⟩ := recorded_of_record hr
      rw [hr.remembered, Table.get?_insert, if_pos rfl]
    refine Or.inr ⟨rfl, hk, ?_⟩
    rcases remember_cases h with ⟨hm', -, -⟩ | ⟨hk', -⟩ | ⟨-, -, r, hr, rfl⟩ |
      ⟨-, -, first, again, r, r', inner, hr, -, hp, -, rfl⟩
    · rw [hm] at hm'
      cases hm'
    · exact absurd hk' hk
    · have hrecords : r.Records env.graph t := records_of_record hr
      exact ⟨hkept hr, hrecords⟩
    · exact ⟨remembered_recordNew hp (hkept hr),
        (records_of_record hr).of_extends (extends_recordNew hp)⟩

end Environment

namespace Session

variable {s s' : Session} {d : Directive} {o : Outcome} {location : Location}

/-- The states of a compilation. -/
inductive Reached : Session → Prop
  | new (config : SessionConfig) (budget : Nat) : Reached (.new config budget)
  | declareIn {s s' : Session} {parent id : NodeId} {n : Node} (hs : Reached s)
    (h : s.declareIn parent n = .ok (id, s')) : Reached s'
  | apply {s s' : Session} {d : Directive} {location : Location} {o : Outcome} (hs : Reached s)
    (h : s.apply d location = .ok (o, s')) : Reached s'
  | replaceDescriptors {s s' : Session} {text : Text} {location : Location} {r : Except Unit Text}
    (hs : Reached s) (h : s.replaceDescriptors text location = .ok (r, s')) : Reached s'

/-- A class is refused for its name alone, and only the scopes and types learn a new one. -/
theorem declareClass_cases {name : Text} {bases : List Text}
    (h : s.declareClass name bases location = .ok (o, s')) :
    (∃ d, o = .error () ∧ s' = s.report d) ∨
    ∃ environment, o = .ok none ∧ s' = { s with environment } := by
  unfold declareClass at h
  split at h
  · cases h
    exact Or.inl ⟨_, rfl, rfl⟩
  · obtain ⟨qualified, -, h⟩ := bind_eq_ok h
    obtain ⟨scopes, -, h⟩ := bind_eq_ok h
    obtain ⟨known, -, h⟩ := bind_eq_ok h
    obtain ⟨environment, -, h⟩ := bind_eq_ok h
    cases h
    exact Or.inr ⟨environment, rfl, rfl⟩

theorem settle_cases {r : Except TypedefError ScopeGraph} (h : s.settle location r = (o, s')) :
    (∃ d, o = .error () ∧ s' = s.report d) ∨ ∃ g, o = .ok none ∧ s' = s.withGraph g := by
  cases r with
  | error e =>
    cases h
    exact Or.inl ⟨_, rfl, rfl⟩
  | ok g =>
    cases h
    exact Or.inr ⟨g, rfl, rfl⟩

theorem withNode_cases {id : NodeId} {step : Except Fault TemplateEngine}
    (h : s.withNode id location step = .ok (o, s')) :
    (∃ d, o = .error () ∧ s' = s.report d) ∨ ∃ engine, o = .ok none ∧ s' = { s with engine } := by
  unfold withNode at h
  split at h
  · obtain ⟨engine, -, h⟩ := map_eq_ok h
    cases h
    exact Or.inr ⟨engine, rfl, rfl⟩
  · cases h
    exact Or.inl ⟨_, rfl, rfl⟩

/-- What a failed directive may touch: the node that it made, the warnings and the queue. -/
structure Abandoned (s s' : Session) : Prop where
  config : s'.config = s.config
  environment : s'.environment = s.environment
  definitions : s.engine.SameDefinitions s'.engine
  grown : s.tree.Grown s'.tree

theorem Abandoned.report (h : s.Abandoned s') (d : Diagnostic) : s.Abandoned (s'.report d) :=
  ⟨h.config, h.environment, h.definitions, h.grown⟩

/-- An instance that fails is left without a parent; one that is made is the last under the
root. -/
theorem instantiate_cases {name shownName : Text} {args : List TemplateArgument}
    (h : s.instantiate name args shownName location = .ok (o, s')) :
    (o = .error () ∧ s.Abandoned s') ∨
    ∃ id t, o = .ok (some id) ∧ s.tree.Grown t ∧ t.attach root id = .ok s'.tree := by
  unfold instantiate at h
  obtain ⟨⟨result, engine, tree⟩, hi, h⟩ := bind_eq_ok h
  obtain ⟨hsame, hgrown, hnew⟩ := TemplateEngine.grown_instantiate hi
  have hdrained : s.Abandoned (drainWarnings { s with engine, tree }) :=
    ⟨rfl, rfl, ⟨hsame.templates, hsame.specializations⟩, hgrown⟩
  cases result with
  | error e =>
    cases h
    exact Or.inl ⟨rfl, hdrained.report _⟩
  | ok id =>
    obtain ⟨made, -, h⟩ := bind_eq_ok h
    dsimp only at h
    split at h
    · obtain ⟨⟨declared, u⟩, hu, h⟩ := bind_eq_ok h
      rcases declareClass_cases hu with ⟨d, rfl, rfl⟩ | ⟨environment, rfl, rfl⟩
      · cases h
        exact Or.inl ⟨rfl, hdrained.config, hdrained.environment, hdrained.definitions,
          hgrown.modifyNode (f := fun n => { n with failed := true }) (hnew id rfl)⟩
      · obtain ⟨t, ht, h⟩ := bind_eq_ok h
        cases h
        exact Or.inr ⟨id, tree, rfl, hgrown, ht⟩
    · obtain ⟨⟨declared, u⟩, hu, h⟩ := bind_eq_ok h
      cases hu
      obtain ⟨t, ht, h⟩ := bind_eq_ok h
      cases h
      exact Or.inr ⟨id, tree, rfl, hgrown, ht⟩

/-- A directive that fails, other than a type that cannot be remembered as asked, does nothing but
report; those that succeed leave the tree alone or attach an instance. -/
theorem apply_cases (h : s.apply d location = .ok (o, s')) :
    (o = .error () ∧ (∀ t data, d ≠ .remember t data) ∧ s.Abandoned s') ∨
    (∃ v, o = .ok v ∧ s'.tree = s.tree) ∨
    (∃ id t, o = .ok (some id) ∧ s.tree.Grown t ∧ t.attach root id = .ok s'.tree) ∨
    ∃ t data e environment d', d = .remember t data ∧ o = .error () ∧
      s.environment.remember t data = .ok (.error e, environment) ∧
      s' = ({ s with lastLocation := location, environment } : Session).report d' := by
  have hreport : ∀ d, s.Abandoned (({ s with lastLocation := location } : Session).report d) :=
    fun d => ⟨rfl, rfl, .refl _, .refl _⟩
  unfold apply at h
  dsimp only at h
  split at h
  · obtain ⟨r, -, h⟩ := map_eq_ok h
    rcases settle_cases h with ⟨d, ho, rfl⟩ | ⟨g, ho, rfl⟩
    · exact Or.inl ⟨ho, nofun, hreport d⟩
    · exact Or.inr (Or.inl ⟨none, ho, rfl⟩)
  · rcases declareClass_cases h with ⟨d, ho, rfl⟩ | ⟨environment, ho, rfl⟩
    · exact Or.inl ⟨ho, nofun, hreport d⟩
    · exact Or.inr (Or.inl ⟨none, ho, rfl⟩)
  · cases h
    exact Or.inr (Or.inl ⟨none, rfl, rfl⟩)
  · cases h
    exact Or.inr (Or.inl ⟨none, rfl, rfl⟩)
  · obtain ⟨found, -, h⟩ := map_eq_ok h
    cases h
    exact Or.inr (Or.inl ⟨none, rfl, rfl⟩)
  · obtain ⟨r, -, h⟩ := map_eq_ok h
    rcases settle_cases h with ⟨d, ho, rfl⟩ | ⟨g, ho, rfl⟩
    · exact Or.inl ⟨ho, nofun, hreport d⟩
    · exact Or.inr (Or.inl ⟨none, ho, rfl⟩)
  · obtain ⟨found, -, h⟩ := map_eq_ok h
    cases h
    exact Or.inr (Or.inl ⟨none, rfl, rfl⟩)
  · obtain ⟨environment, -, h⟩ := map_eq_ok h
    cases h
    exact Or.inr (Or.inl ⟨none, rfl, rfl⟩)
  · rename_i t data
    obtain ⟨⟨r, environment⟩, hr, h⟩ := map_eq_ok h
    cases r with
    | ok u =>
      cases h
      exact Or.inr (Or.inl ⟨none, rfl, rfl⟩)
    | error e =>
      cases h
      exact Or.inr (Or.inr (Or.inr ⟨t, data, e, environment, _, rfl, rfl, hr, rfl⟩))
  · rcases withNode_cases h with ⟨d, ho, rfl⟩ | ⟨engine, ho, rfl⟩
    · exact Or.inl ⟨ho, nofun, hreport d⟩
    · exact Or.inr (Or.inl ⟨none, ho, rfl⟩)
  · rcases withNode_cases h with ⟨d, ho, rfl⟩ | ⟨engine, ho, rfl⟩
    · exact Or.inl ⟨ho, nofun, hreport d⟩
    · exact Or.inr (Or.inl ⟨none, ho, rfl⟩)
  · rcases withNode_cases h with ⟨d, ho, rfl⟩ | ⟨engine, ho, rfl⟩
    · exact Or.inl ⟨ho, nofun, hreport d⟩
    · exact Or.inr (Or.inl ⟨none, ho, rfl⟩)
  · rcases instantiate_cases h with ⟨ho, ha⟩ | hmade
    · exact Or.inl ⟨ho, nofun, ha.config, ha.environment, ha.definitions, ha.grown⟩
    · exact Or.inr (Or.inr (Or.inl hmade))

/-- The root is there, and links stay inside the tree. -/
structure Rooted (s : Session) : Prop where
  root_lt : (root : Nat) < s.tree.size
  closed : s.tree.Closed

theorem rooted_of_reached (h : Reached s) : s.Rooted := by
  induction h with
  | new config budget =>
    refine ⟨Nat.zero_lt_one, fun a b hab => ?_⟩
    have hnone : ∀ a b, ¬ ({} : DeclTree).Holds a b := by
      rintro a b ⟨n, hn, -⟩
      cases hn
    exact absurd (DeclTree.holds_add hab) (hnone a b)
  | declareIn hs h ih =>
    obtain ⟨⟨id, tree⟩, ht, h⟩ := bind_eq_ok h
    cases h
    refine ⟨?_, ih.closed.addChild ht⟩
    rw [DeclTree.size_addChild ht]
    exact Nat.lt_succ_of_lt ih.root_lt
  | apply hs h ih =>
    rcases apply_cases h with ⟨-, -, ha⟩ | ⟨v, -, ht⟩ | ⟨id, t, -, hg, ht⟩ |
      ⟨t, data, e, environment, d, -, -, -, rfl⟩
    · exact ⟨Nat.lt_of_lt_of_le ih.root_lt ha.grown.size_le, ha.grown.closed ih.closed⟩
    · exact ⟨ht ▸ ih.root_lt, ht ▸ ih.closed⟩
    · refine ⟨?_, (hg.closed ih.closed).attach ht⟩
      rw [DeclTree.size_attach ht]
      exact Nat.lt_of_lt_of_le ih.root_lt hg.size_le
    · exact ⟨ih.root_lt, ih.closed⟩
  | replaceDescriptors hs h ih =>
    obtain ⟨⟨r, environment⟩, -, h⟩ := map_eq_ok h
    cases r with
    | ok done =>
      cases h
      exact ⟨ih.root_lt, ih.closed⟩
    | error e =>
      cases h
      exact ⟨ih.root_lt, ih.closed⟩

/-- The same scopes, template definitions and declarations; the registry of types, diagnostics and
nodes that stand nowhere may differ. -/
structure SameOutsideRegistry (s s' : Session) : Prop where
  config : s'.config = s.config
  graph : s'.environment.graph = s.environment.graph
  definitions : s.engine.SameDefinitions s'.engine
  leads : ∀ id, s'.tree.Leads root id ↔ s.tree.Leads root id
  nodes : ∀ id, s.tree.Leads root id → s'.tree.nodes[id]? = s.tree.nodes[id]?

theorem Abandoned.sameOutsideRegistry (hs : s.Rooted) (h : s.Abandoned s') :
    s.SameOutsideRegistry s' where
  config := h.config
  graph := by rw [h.environment]
  definitions := h.definitions
  leads _ := h.grown.leads_iff hs.closed hs.root_lt
  nodes id hid := h.grown.kept id (hs.closed.lt_size_of_leads hs.root_lt hid)

/-- A failed directive leaves the scopes, the template definitions and all declarations as they
were. It leaves the types that the runtime has to know as they were too, except where the client
data of a well-spelled type are refused: such a type is on record all the same. -/
theorem failed_directive_keeps_iff (hs : s.Reached)
    (h : s.apply d location = .ok (.error (), s')) :
    s.SameOutsideRegistry s' ∧
    (s'.environment.registry = s.environment.registry ↔
      ∀ t data, d = .remember t data → Environment.isMisspelled t = true) ∧
    ∀ t data, d = .remember t data → Environment.isMisspelled t = false →
      s.environment.registry.remembered.get? t ≠ some data ∧
      s'.environment.registry.remembered.get? t = some data ∧ s'.environment.Denotes t := by
  rcases apply_cases h with ⟨-, hd, ha⟩ | ⟨v, ho, -⟩ | ⟨id, t, ho, -⟩ |
    ⟨t, data, e, environment, d', rfl, -, hr, rfl⟩
  · have hregistry : s'.environment.registry = s.environment.registry := by rw [ha.environment]
    exact ⟨ha.sameOutsideRegistry (rooted_of_reached hs),
      ⟨fun _ t data ht => absurd ht (hd t data), fun _ => hregistry⟩,
      fun t data ht => absurd ht (hd t data)⟩
  · cases ho
  · cases ho
  · have hgraph := Environment.graph_remember hr
    refine ⟨⟨rfl, hgraph, .refl _, fun _ => Iff.rfl, fun _ _ => rfl⟩, ?_⟩
    rcases Environment.remember_eq_error hr with ⟨hm, rfl⟩ | ⟨hm, hk, hk', hdenotes⟩
    · refine ⟨⟨fun _ t' data' ht => ?_, fun _ => rfl⟩, fun t' data' ht hm' => ?_⟩
      · cases ht
        exact hm
      · cases ht
        rw [hm] at hm'
        cases hm'
    · refine ⟨⟨fun hsame => ?_, fun hall => ?_⟩, fun t' data' ht _ => ?_⟩
      · have hsame : environment.registry = s.environment.registry := hsame
        exact absurd (hsame ▸ hk') hk
      · rw [hall t data rfl] at hm
        cases hm
      · cases ht
        exact ⟨hk, hk', hdenotes⟩

/-- The directives one after another. -/
def follow (s : Session) (ds : List Directive) : Except Fault Session :=
  ds.foldlM (fun s d => (s.apply d .synthetic).map (·.2)) s

theorem reached_follow {ds : List Directive} (hs : s.Reached) (h : s.follow ds = .ok s') :
    s'.Reached := by
  refine foldlM_keeps (fun s d _ s' hs h => ?_) hs h
  obtain ⟨⟨o, u⟩, hu, rfl⟩ := map_eq_ok h
  exact .apply hs hu

/-- Class `A` of namespace `N` is remembered in its scope, with client data. -/
def rememberedInScope : List Directive :=
  [.enterScope (some "N".toList), .declareClass "A".toList [],
    .remember "A".toList (some "x".toList), .leaveScope]

/-- Other client data for the same class are refused, and its qualified name gets a row. -/
theorem refused_from_outside :
    ∃ s s', (Session.new {} 20).follow rememberedInScope = .ok s ∧
      s.apply (.remember "N::A".toList (some "y".toList)) .synthetic = .ok (.error (), s') ∧
      s.environment.rememberedNames = ["_A".toList] ∧
      s'.environment.rememberedNames = ["_A".toList, "_N__A".toList] := by
  have hrun : (((Session.new {} 20).follow rememberedInScope).bind fun s =>
      (s.apply (.remember "N::A".toList (some "y".toList)) .synthetic).map fun r =>
        (r.1, s.environment.rememberedNames, r.2.environment.rememberedNames)) =
      .ok (.error (), ["_A".toList], ["_A".toList, "_N__A".toList]) := by decide +kernel
  obtain ⟨s, hs, hrun⟩ := bind_eq_ok hrun
  obtain ⟨⟨o, s'⟩, ha, hrun⟩ := map_eq_ok hrun
  have hrun := Prod.ext_iff.mp hrun
  have hnames := Prod.ext_iff.mp hrun.2
  have ho : o = .error () := hrun.1
  exact ⟨s, s', hs, ho ▸ ha, hnames.1, hnames.2⟩

theorem refused_class_on_record :
    ∃ s s', Reached s ∧
      s.apply (.remember "N::A".toList (some "y".toList)) .synthetic = .ok (.error (), s') ∧
      s.SameOutsideRegistry s' ∧ s'.environment.Denotes "N::A".toList := by
  obtain ⟨s, s', hs, ha, -, -⟩ := refused_from_outside
  have hr := reached_follow (.new {} 20) hs
  have hkept := failed_directive_keeps_iff hr ha
  have hspelled : Environment.isMisspelled "N::A".toList = false := by decide +kernel
  exact ⟨s, s', hr, ha, hkept.1, (hkept.2.2 _ _ rfl hspelled).2.2⟩

/-- The refused class has a row in the next table that it would not have had. -/
theorem refused_class_has_row :
    (¬ ∀ s d location s', Reached s → s.apply d location = .ok (.error (), s') →
      s'.environment = s.environment) ∧
    ∃ s s', Reached s ∧
      s.apply (.remember "N::A".toList (some "y".toList)) .synthetic = .ok (.error (), s') ∧
      "_N__A".toList ∉ s.environment.rememberedNames ∧
      "_N__A".toList ∈ s'.environment.rememberedNames := by
  obtain ⟨s, s', hs, ha, hnames, hnames'⟩ := refused_from_outside
  have hr := reached_follow (.new {} 20) hs
  have hbefore : "_N__A".toList ∉ s.environment.rememberedNames := by
    rw [hnames]
    decide
  have hafter : "_N__A".toList ∈ s'.environment.rememberedNames := by
    rw [hnames']
    decide
  refine ⟨fun h => ?_, s, s', hr, ha, hbefore, hafter⟩
  rw [h s _ _ s' hr ha] at hafter
  exact hbefore hafter

end Session

end BindingTypes
