import BindingTypes.Proofs.Template.Arity
import BindingTypes.Template.Engine

namespace BindingTypes

/-- Only what nodes in `P` say may differ; no link does. -/
structure DeclTree.Rewrites (P : NodeId → Prop) (t t' : DeclTree) : Prop where
  links : ∀ i : Nat, t'.nodes[i]?.map (·.children) = t.nodes[i]?.map (·.children)
  parents : ∀ i : Nat, t'.nodes[i]?.map (·.parent) = t.nodes[i]?.map (·.parent)
  others : ∀ i : Nat, ¬ P i → t'.nodes[i]? = t.nodes[i]?
  size_eq : t'.size = t.size

namespace DeclTree.Rewrites

variable {P : NodeId → Prop} {t t' t'' : DeclTree} {id : Nat}

theorem refl (P : NodeId → Prop) (t : DeclTree) : t.Rewrites P t :=
  ⟨fun _ => rfl, fun _ => rfl, fun _ _ => rfl, rfl⟩

theorem trans (h : t.Rewrites P t') (h' : t'.Rewrites P t'') : t.Rewrites P t'' :=
  ⟨fun i => (h'.links i).trans (h.links i), fun i => (h'.parents i).trans (h.parents i),
    fun i hi => (h'.others i hi).trans (h.others i hi), h'.size_eq.trans h.size_eq⟩

theorem modifyNode (hid : P id) (f : Node → Node) : t.Rewrites P (t.modifyNode id f) := by
  refine ⟨fun i => ?_, fun i => ?_, fun i hi => ?_, size_modifyLinks _⟩
  · rw [DeclTree.modifyNode, getElem?_modifyLinks]
    split
    · rw [Option.map_map]
      rfl
    · rfl
  · rw [DeclTree.modifyNode, getElem?_modifyLinks]
    split
    · rw [Option.map_map]
      rfl
    · rfl
  · rw [DeclTree.modifyNode, getElem?_modifyLinks, if_neg]
    rintro rfl
    exact hi hid

theorem holds_iff (h : t.Rewrites P t') {a b : Nat} : t'.Holds a b ↔ t.Holds a b := by
  rw [DeclTree.holds_iff, DeclTree.holds_iff, h.links a]

end DeclTree.Rewrites

/-- The kind of a declaration. -/
def DeclTree.kindAt (t : DeclTree) (id : NodeId) : Option NodeKind :=
  t.nodes[id]?.map (·.node.kind)

/-- Only what nodes in `P` say may differ, and not the kinds of nodes. -/
structure DeclTree.Refills (P : NodeId → Prop) (t t' : DeclTree) : Prop
    extends t.Rewrites P t' where
  kinds : ∀ i : Nat, t'.kindAt i = t.kindAt i

namespace DeclTree

variable {P : NodeId → Prop} {t t' t'' : DeclTree} {id : Nat} {f : Node → Node}

theorem kindAt_modifyNode (i : Nat) : (t.modifyNode id f).kindAt i =
    if id = i then t.nodes[i]?.map fun l => (f l.node).kind else t.kindAt i := by
  unfold kindAt
  rw [modifyNode, getElem?_modifyLinks]
  split
  · rw [Option.map_map]
    rfl
  · rfl

theorem Refills.refl (P : NodeId → Prop) (t : DeclTree) : t.Refills P t :=
  ⟨.refl P t, fun _ => rfl⟩

theorem Refills.trans (h : t.Refills P t') (h' : t'.Refills P t'') : t.Refills P t'' :=
  ⟨h.toRewrites.trans h'.toRewrites, fun i => (h'.kinds i).trans (h.kinds i)⟩

theorem Refills.modifyNode (hid : P id) (hf : ∀ n, (f n).kind = n.kind) :
    t.Refills P (t.modifyNode id f) := by
  refine ⟨.modifyNode hid f, fun i => ?_⟩
  rw [kindAt_modifyNode]
  split
  · exact Option.map_congr fun l _ => hf l.node
  · rfl

end DeclTree

theorem Node.kind_setType (n : Node) (slot : TypeSlot) (u : CType) :
    (n.setType slot u).kind = n.kind := by
  cases slot <;> rfl

theorem Node.kind_mapText (n : Node) (slot : TextSlot) (f : Text → Text) :
    (n.mapText slot f).kind = n.kind := by
  cases slot <;> rfl

theorem DeclTree.Grown.rewrites {P : NodeId → Prop} {t t' t'' : DeclTree} (h : t.Grown t')
    (hP : ∀ i : Nat, P i → t.size ≤ i) (hr : t'.Rewrites P t'') : t.Grown t'' := by
  refine ⟨fun i hi => ?_, fun a b hab ha => ?_, ?_⟩
  · rw [hr.others i fun hp => absurd (hP i hp) (by omega), h.kept i hi]
  · rw [hr.size_eq]
    exact h.above a b (hr.holds_iff.mp hab) ha
  · rw [hr.size_eq]
    exact h.size_le

/-- Every slot is one of a node in `P`. -/
structure Slots.Within (P : NodeId → Prop) (s : Slots) : Prop where
  types : ∀ e ∈ s.types, P e.1
  values : ∀ e ∈ s.values, P e.1
  code : ∀ e ∈ s.code, P e.1

namespace Slots.Within

variable {P : NodeId → Prop} {a b : Slots} {id : NodeId}

theorem empty : ({} : Slots).Within P := ⟨nofun, nofun, nofun⟩

theorem append (ha : a.Within P) (hb : b.Within P) : (a.append b).Within P :=
  ⟨fun e he => (List.mem_append.mp he).elim (ha.types e) (hb.types e),
    fun e he => (List.mem_append.mp he).elim (ha.values e) (hb.values e),
    fun e he => (List.mem_append.mp he).elim (ha.code e) (hb.code e)⟩

theorem parameterSlots (hid : P id) (ps : List Parameter) (type : Nat → TypeSlot)
    (value : Nat → TextSlot) : (Instantiation.parameterSlots id ps type value).Within P := by
  refine ⟨fun e he => ?_, nofun, fun e he => ?_⟩
  · obtain ⟨i, -, rfl⟩ := List.mem_map.mp he
    exact hid
  · obtain ⟨i, -, rfl⟩ := List.mem_map.mp he
    exact hid

theorem mem_nameSlots {slot : TextSlot} {name : Option Text} {e : NodeId × TextSlot}
    (h : e ∈ Instantiation.nameSlots id slot name) : e.1 = id := by
  unfold Instantiation.nameSlots at h
  split at h
  · rw [List.mem_singleton.mp h]
  · cases h

/-- Slots that are listed one by one. -/
theorem of_forall (ht : ∀ e ∈ a.types, e.1 = id) (hv : ∀ e ∈ a.values, e.1 = id)
    (hc : ∀ e ∈ a.code, e.1 = id) (hid : P id) : a.Within P :=
  ⟨fun e he => ht e he ▸ hid, fun e he => hv e he ▸ hid, fun e he => hc e he ▸ hid⟩

theorem slotsOf (hid : P id) (kind : DeclKind) (n : Node) :
    (Instantiation.slotsOf id kind n).Within P := by
  unfold Instantiation.slotsOf
  have hparameters : (Instantiation.parametersOf id n).Within P := parameterSlots hid _ _ _
  have hthrows : (Instantiation.throwsOf id n).Within P := parameterSlots hid _ _ _
  have hpattern : (Instantiation.patternOf id n).Within P := parameterSlots hid _ _ _
  have hplain : ∀ a : Slots, (∀ e ∈ a.types, e.1 = id) → (∀ e ∈ a.values, e.1 = id) →
      (∀ e ∈ a.code, e.1 = id) → a.Within P := fun a ht hv hc => of_forall ht hv hc hid
  cases kind with
  | declaration =>
    refine ((hplain _ ?_ ?_ ?_).append hparameters).append hthrows
    · simp
    · simp
    · intro e he
      rcases List.mem_cons.mp he with rfl | he
      · rfl
      · -- the two names of a conversion
        split at he
        · simp only [List.mem_cons, List.not_mem_nil, or_false] at he
          rcases he with rfl | rfl <;> rfl
        · cases he
  | classDecl => exact hplain _ (by simp) (by simp) (by simp)
  | constructor => exact ((hplain _ (by simp) (by simp) (by simp)).append hparameters).append hthrows
  | destructor => exact hplain _ (by simp) (by simp) (by simp)
  | usingDecl => exact hplain _ (by simp) (fun e => mem_nameSlots) (by simp)
  | _ =>
    exact (((hplain _ (by simp) (by simp) (by simp)).append hparameters).append hpattern).append
      hthrows

end Slots.Within

namespace DeclTree

variable {P : NodeId → Prop} {t : DeclTree}

/-- A failed declaration is passed over; another one is visited, and then what stands below it where
it is a container. -/
theorem visitsFrom_step {fuel : Nat} {p : NodeId × Bool} {ids : List (NodeId × Bool)}
    {vs : List Visit} (h : t.visitsFrom (fuel + 1) (p :: ids) = .ok vs) :
    ∃ l, t.nodes[p.1]? = some l ∧
      ((l.node.failed = true ∧ t.visitsFrom fuel ids = .ok vs) ∨
        (l.node.failed = false ∧ ∃ vs', t.visitsFrom fuel ((if l.node.kind.kind.isContainer then
            l.children.map (·, l.node.kind.isTemplate || p.2) else []) ++ ids) = .ok vs' ∧
          vs = ⟨p.1, l.node.kind.kind, l.node.kind.isTemplate, l.node.kind.isTemplate && !p.2⟩ ::
            vs')) := by
  obtain ⟨id, unwrapped⟩ := p
  unfold visitsFrom at h
  obtain ⟨l, hl, h⟩ := bind_eq_ok h
  refine ⟨l, get_eq_ok_iff.mp hl, ?_⟩
  split at h
  · exact Or.inl ⟨‹_›, h⟩
  · rename_i hfailed
    obtain ⟨vs', hvs, h⟩ := bind_eq_ok h
    cases h
    exact Or.inr ⟨by simpa using hfailed, vs', hvs, rfl⟩

/-- A failed declaration is passed over; what stands below another one is visited next, or nothing
that does. -/
theorem visitsFrom_cases {fuel : Nat} {p : NodeId × Bool} {ids : List (NodeId × Bool)}
    {vs : List Visit} (h : t.visitsFrom (fuel + 1) (p :: ids) = .ok vs) :
    ∃ linked, t.nodes[p.1]? = some linked ∧
      (t.visitsFrom fuel ids = .ok vs ∨ ∃ v below vs', v.id = p.1 ∧
        (below.map (·.1)).Sublist linked.children ∧
        t.visitsFrom fuel (below ++ ids) = .ok vs' ∧ vs = v :: vs') := by
  obtain ⟨l, hl, ⟨-, hrest⟩ | ⟨-, vs', hrest, rfl⟩⟩ := visitsFrom_step h
  · exact ⟨l, hl, Or.inl hrest⟩
  · refine ⟨l, hl, Or.inr ⟨_, _, vs', rfl, ?_, hrest, rfl⟩⟩
    split
    · simp [Function.comp_def]
    · exact List.nil_sublist _

/-- An expansion stays where the links of the declarations it starts from lead. -/
theorem mem_of_visitsFrom {fuel : Nat} {ids : List (NodeId × Bool)} {vs : List Visit}
    (hP : ∀ a b, P a → t.Holds a b → P b) (hids : ∀ p ∈ ids, P p.1)
    (h : t.visitsFrom fuel ids = .ok vs) : ∀ v ∈ vs, P v.id := by
  induction fuel generalizing ids vs with
  | zero =>
    cases ids with
    | nil =>
      cases h
      exact fun v hv => by cases hv
    | cons p ids => cases h
  | succ fuel ih =>
    cases ids with
    | nil =>
      cases h
      exact fun v hv => by cases hv
    | cons p ids =>
      obtain ⟨hp, hids⟩ := List.forall_mem_cons.mp hids
      obtain ⟨linked, hl, hrest | ⟨v, below, vs', hv, hbelow, hrest, rfl⟩⟩ := visitsFrom_cases h
      · exact ih hids hrest
      · refine List.forall_mem_cons.mpr ⟨hv ▸ hp, ih (fun q hq => ?_) hrest⟩
        rcases List.mem_append.mp hq with hq | hq
        · exact hP p.1 q.1 hp ⟨linked, hl, hbelow.subset (List.mem_map_of_mem hq)⟩
        · exact hids q hq

end DeclTree

namespace Instantiation

variable {P : NodeId → Prop} {t t' : DeclTree}

section Visits

variable {names : Names} {v : Visit} {vs : List Visit} {n n' : Node} {slots : Slots}

/-- A visit changes the kind of what it unwraps and the names of a constructor or destructor, whose
slots come first. -/
theorem visitNode_cases (h : visitNode names v n = .ok (n', slots)) :
    ∃ (name shownName : Option Text) (named : Slots),
      n' = { n with kind := if v.unwraps then ⟨v.kind, false⟩ else n.kind, name, shownName } ∧
      slots = named.append (slotsOf v.id v.kind n') ∧
      named.types = [] ∧ named.code = [] ∧ ∀ e ∈ named.values, e.1 = v.id := by
  have hunwrapped : (if v.unwraps then { n with kind := ⟨v.kind, false⟩ } else n) =
      { n with kind := if v.unwraps then ⟨v.kind, false⟩ else n.kind } := by split <;> rfl
  unfold visitNode at h
  dsimp only at h
  rw [hunwrapped] at h
  split at h
  · split at h
    · cases h
      exact ⟨n.name, n.shownName, {}, rfl, rfl, rfl, rfl, nofun⟩
    · obtain ⟨⟨m, named⟩, hm, h⟩ := bind_eq_ok h
      cases h
      obtain ⟨name, -, hm⟩ := bind_eq_ok hm
      obtain ⟨shown, -, hm⟩ := bind_eq_ok hm
      cases hm
      exact ⟨_, _, _, rfl, rfl, rfl, rfl, fun e => Slots.Within.mem_nameSlots⟩
  · cases h
    refine ⟨_, _, _, rfl, rfl, rfl, rfl, fun e he => ?_⟩
    exact (List.mem_append.mp he).elim Slots.Within.mem_nameSlots Slots.Within.mem_nameSlots
  · cases h
    exact ⟨n.name, n.shownName, {}, rfl, rfl, rfl, rfl, nofun⟩

theorem visitAll_cons (h : visitAll names (v :: vs) t = .ok (t', slots)) :
    ∃ n n' own rest, t.node v.id = .ok n ∧ visitNode names v n = .ok (n', own) ∧
      visitAll names vs (t.modifyNode v.id fun _ => n') = .ok (t', rest) ∧
      slots = own.append rest := by
  unfold visitAll at h
  obtain ⟨n, hn, h⟩ := bind_eq_ok h
  obtain ⟨⟨n', own⟩, hvisit, h⟩ := bind_eq_ok h
  obtain ⟨⟨u, rest⟩, hu, h⟩ := bind_eq_ok h
  cases h
  exact ⟨n, n', own, rest, hn, hvisit, hu, rfl⟩

theorem within_visitNode (hid : P v.id) (h : visitNode names v n = .ok (n', slots)) :
    slots.Within P := by
  obtain ⟨name, shownName, named, -, rfl, htypes, hcode, hvalues⟩ := visitNode_cases h
  exact .append (.of_forall (htypes ▸ nofun) hvalues (hcode ▸ nofun) hid) (.slotsOf hid _ _)

theorem rewrites_visitAll (hvs : ∀ v ∈ vs, P v.id) (h : visitAll names vs t = .ok (t', slots)) :
    t.Rewrites P t' ∧ slots.Within P := by
  induction vs generalizing t t' slots with
  | nil =>
    cases h
    exact ⟨.refl P t, .empty⟩
  | cons v vs ih =>
    obtain ⟨n, n', own, rest, -, hn, hu, rfl⟩ := visitAll_cons h
    have hid := hvs v List.mem_cons_self
    obtain ⟨hr, hw⟩ := ih (fun v hv => hvs v (List.mem_cons_of_mem _ hv)) hu
    exact ⟨(DeclTree.Rewrites.modifyNode hid _).trans hr, (within_visitNode hid hn).append hw⟩

end Visits

theorem refills_mapTypes {f : CType → Except Fault CType} {slots : List (NodeId × TypeSlot)}
    {t : DeclTree} (hs : ∀ e ∈ slots, P e.1) (h : mapTypes f slots t = .ok t') :
    t.Refills P t' := by
  induction slots generalizing t with
  | nil =>
    cases h
    exact .refl P _
  | cons e slots ih =>
    obtain ⟨id, slot⟩ := e
    have hid : P id := hs _ List.mem_cons_self
    have hrest : ∀ e ∈ slots, P e.1 := fun e he => hs e (List.mem_cons_of_mem _ he)
    unfold mapTypes at h
    obtain ⟨n, -, h⟩ := bind_eq_ok h
    split at h
    · exact ih hrest h
    · obtain ⟨new, -, h⟩ := bind_eq_ok h
      have hset : t.Refills P (t.modifyNode id (·.setType slot new)) :=
        .modifyNode hid fun n => n.kind_setType slot new
      exact hset.trans (ih hrest h)

theorem refills_mapTexts {f : Text → Text} {slots : List (NodeId × TextSlot)}
    (hs : ∀ e ∈ slots, P e.1) : t.Refills P (mapTexts f slots t) := by
  induction slots generalizing t with
  | nil => exact .refl P t
  | cons e slots ih =>
    have hset : t.Refills P (t.modifyNode e.1 (·.mapText e.2 f)) :=
      .modifyNode (hs _ List.mem_cons_self) fun n => n.kind_mapText e.2 f
    exact hset.trans (ih fun e he => hs e (List.mem_cons_of_mem _ he))

theorem refills_substitute {slots : Slots} {own instanceOf name : Text} {arg : TemplateArgument}
    (hs : slots.Within P) (h : substitute slots own instanceOf name arg t = .ok t') :
    t.Refills P t' := by
  unfold substitute at h
  obtain ⟨spelling, -, h⟩ := bind_eq_ok h
  obtain ⟨u, hu, h⟩ := bind_eq_ok h
  cases h
  exact ((refills_mapTexts hs.values).trans (refills_mapTypes hs.types hu)).trans
    (refills_mapTexts hs.code)

theorem refills_substituteAll {slots : Slots} {own instanceOf : Text} {mismatch : TemplateError}
    {ps : List Parameter} {args : List TemplateArgument} {t : DeclTree} (hs : slots.Within P)
    (h : substituteAll slots own instanceOf mismatch ps args t = .ok (.ok (), t')) :
    t.Refills P t' := by
  induction hn : ps.length generalizing ps args t with
  | zero =>
    cases List.length_eq_zero_iff.mp hn
    rw [substituteAll] at h
    cases h
    exact .refl P _
  | succ n ih =>
    cases ps with
    | nil => cases hn
    | cons p ps =>
      rw [substituteAll] at h
      split at h
      · cases h
      · split at h
        · exact ih h (by simpa using hn)
        · obtain ⟨u, hu, h⟩ := bind_eq_ok h
          exact (refills_substitute hs hu).trans (ih h (by simpa using hn))

theorem Fills.refills {e : Instantiation} {d : Node} {template : Text} {slots : Slots}
    (hs : slots.Within P) (h : e.Fills d template slots t t') : t.Refills P t' := by
  rcases h with ⟨-, h⟩ | ⟨-, mismatch, h⟩
  · exact refills_mapTypes hs.types h
  · exact refills_substituteAll hs h

/-- Only the visits of an expansion change kinds; what comes after them refills the visited
declarations. -/
theorem Expands.refills {e : Instantiation} {d : Node} {template : Text} {id : NodeId} (hid : P id)
    (hP : ∀ vs, t.visits id = .ok vs → ∀ v ∈ vs, P v.id) (h : e.Expands d template t id t') :
    ∃ vs u slots, t.visits id = .ok vs ∧
      visitAll ⟨template, e.shownName, argumentBlock e.instanceArguments⟩ vs t = .ok (u, slots) ∧
      t.Rewrites P u ∧ u.Refills P t' := by
  obtain ⟨vs, u, slots, w, bases, hvs, hu, hw, rfl⟩ := h
  obtain ⟨hr, hslots⟩ := rewrites_visitAll (hP vs hvs) hu
  have hnamed : u.Refills P (u.modifyNode id fun n =>
      { n with name := n.name.map fun _ => template ++ argumentBlock e.instanceArguments }) :=
    .modifyNode hid fun _ => rfl
  have hbases : w.Refills P (w.modifyNode id fun n => { n with bases := bases }) :=
    .modifyNode hid fun _ => rfl
  exact ⟨vs, u, slots, hvs, hu, hr, (hnamed.trans (hw.refills hslots)).trans hbases⟩

/-- An expansion changes what it visits, and no link. -/
theorem rewrites_expand {e : Instantiation} {g : ScopeGraph} {id : NodeId} (hid : P id)
    (hP : ∀ a b, P a → t.Holds a b → P b) (h : e.expand t g id = .ok (.ok t')) :
    t.Rewrites P t' := by
  obtain ⟨d, template, -, -, hx⟩ := expand_cases h
  have hvisited : ∀ vs, t.visits id = .ok vs → ∀ v ∈ vs, P v.id := by
    refine fun vs hvs => DeclTree.mem_of_visitsFrom hP (fun p hp => ?_) hvs
    rw [List.mem_singleton.mp hp]
    exact hid
  obtain ⟨vs, u, slots, -, -, hr, hfilled⟩ := hx.refills hid hvisited
  exact hr.trans hfilled.toRewrites

end Instantiation

namespace TemplateEngine

variable {e e' : TemplateEngine} {t t' : DeclTree} {g : ScopeGraph} {name : Text}
variable {args : List TemplateArgument} {location : Location}

/-- The same definitions; the warnings may differ. -/
structure SameDefinitions (e e' : TemplateEngine) : Prop where
  templates : e'.templates = e.templates
  specializations : e'.specializations = e.specializations

theorem SameDefinitions.refl (e : TemplateEngine) : e.SameDefinitions e := ⟨rfl, rfl⟩

/-- What is found is a definition that was checked, and at most a warning is new. -/
theorem locate_cases {r : Except TemplateError (NodeId × Match)}
    (h : e.locate t g name args location = .ok (r, e')) :
    e.SameDefinitions e' ∧
      ∀ node how, r = .ok (node, how) → ∃ id, checkTemplate t name id = .ok (.ok node) := by
  have hchosen : ∀ {id chosen : NodeId} {k : Match}, checkTemplate t name id = .ok (.ok chosen) →
      ∀ node how, (.ok (chosen, k) : Except TemplateError _) = .ok (node, how) →
        ∃ id, checkTemplate t name id = .ok (.ok node) := by
    intro id chosen k hc node how hfound
    cases hfound
    exact ⟨id, hc⟩
  have hchecked : ∀ {id : NodeId} {k : Match} {found : Except TemplateError NodeId},
      checkTemplate t name id = .ok found → ∀ node how, found.map (·, k) = .ok (node, how) →
        ∃ id, checkTemplate t name id = .ok (.ok node) := by
    intro id k found hc node how hfound
    obtain ⟨chosen, rfl, heq⟩ := map_eq_ok hfound
    exact hchosen hc node how (congrArg Except.ok heq)
  obtain ⟨reduced, -, h⟩ := bind_eq_ok h
  unfold locateReduced at h
  dsimp only at h
  split at h
  · obtain ⟨found, hc, h⟩ := bind_eq_ok h
    cases h
    exact ⟨.refl e, hchecked hc⟩
  · cases h
    exact ⟨.refl e, nofun⟩
  · obtain ⟨general, -, h⟩ := bind_eq_ok h
    obtain ⟨ps, -, h⟩ := bind_eq_ok h
    split at h
    · split at h
      · obtain ⟨found, hc, h⟩ := bind_eq_ok h
        cases h
        exact ⟨.refl e, hchecked hc⟩
      · cases h
        exact ⟨.refl e, nofun⟩
    · obtain ⟨checked, hc, h⟩ := bind_eq_ok h
      split at h
      · cases h
        exact ⟨.refl e, nofun⟩
      · split at h
        · cases h
          exact ⟨.refl e, hchosen hc⟩
        · obtain ⟨full, -, h⟩ := bind_eq_ok h
          obtain ⟨chosen, -, h⟩ := bind_eq_ok h
          obtain ⟨n, -, h⟩ := bind_eq_ok h
          cases h
          exact ⟨⟨rfl, rfl⟩, hchosen hc⟩

/-- The copy is marked as failed, or expanded. -/
theorem instantiate_finish {shownName : Text} {r : Except TemplateError NodeId} {copy : NodeId}
    {copied : DeclTree} {i : Instantiation}
    (h : (i.expandInPlace copied g copy >>= fun x =>
      match x.1 with
      | .error err => pure (.error err, e, x.2.modifyNode copy fun n => { n with failed := true })
      | .ok () => pure (.ok copy, e,
          x.2.modifyNode copy fun n => { n with shownName := some shownName })) = .ok (r, e', t')) :
    e' = e ∧ ((∃ err, r = .error err ∧
        t' = copied.modifyNode copy fun n => { n with failed := true }) ∨
      ∃ expanded, i.expand copied g copy = .ok (.ok expanded) ∧ r = .ok copy ∧
        t' = expanded.modifyNode copy fun n => { n with shownName := some shownName }) := by
  obtain ⟨⟨result, expanded⟩, hx, h⟩ := bind_eq_ok h
  cases result with
  | error err =>
    cases h
    rw [Instantiation.eq_of_expandInPlace_error hx]
    exact ⟨rfl, .inl ⟨err, rfl, rfl⟩⟩
  | ok =>
    cases h
    refine ⟨rfl, .inr ⟨expanded, ?_, rfl, rfl⟩⟩
    rw [Instantiation.expand, hx]
    rfl

/-- No definition is found, or it is copied; the copy is marked as failed or expanded. -/
theorem instantiate_cases {shownName : Text} {r : Except TemplateError NodeId}
    (h : e.instantiate t g name args shownName location = .ok (r, e', t')) :
    (∃ err, e.locate t g name args location = .ok (.error err, e') ∧ r = .error err ∧ t' = t) ∨
    ∃ node how copy copied, e.locate t g name args location = .ok (.ok (node, how), e') ∧
      t.deepCopy node = .ok (copy, copied) ∧
      ((∃ err, r = .error err ∧
          t' = copied.modifyNode copy fun n => { n with failed := true }) ∨
        ∃ arguments reduced expanded, reduce g args = .ok reduced ∧
          Instantiation.expand ⟨shownName, arguments, reduced⟩ copied g copy =
            .ok (.ok expanded) ∧
          r = .ok copy ∧
          t' = expanded.modifyNode copy fun n => { n with shownName := some shownName }) := by
  unfold instantiate at h
  obtain ⟨⟨found, e₁⟩, hfound, h⟩ := bind_eq_ok h
  cases found with
  | error err =>
    cases h
    exact Or.inl ⟨err, hfound, rfl, rfl⟩
  | ok found =>
    obtain ⟨node, how⟩ := found
    obtain ⟨reduced, hreduced, h⟩ := bind_eq_ok h
    obtain ⟨⟨copy, copied⟩, hcopy, h⟩ := bind_eq_ok h
    cases how with
    | pattern text =>
      obtain ⟨n, -, h⟩ := bind_eq_ok h
      obtain ⟨arguments, -, h⟩ := bind_eq_ok h
      obtain ⟨rfl, hfinish⟩ := instantiate_finish h
      exact .inr ⟨node, _, copy, copied, hfound, hcopy, hfinish.imp_right
        fun ⟨expanded, hx, hr⟩ => ⟨arguments, reduced, expanded, hreduced, hx, hr⟩⟩
    | exact | primary =>
      obtain ⟨arguments, -, h⟩ := bind_eq_ok h
      obtain ⟨rfl, hfinish⟩ := instantiate_finish h
      exact .inr ⟨node, _, copy, copied, hfound, hcopy, hfinish.imp_right
        fun ⟨expanded, hx, hr⟩ => ⟨arguments, reduced, expanded, hreduced, hx, hr⟩⟩

/-- An instance, made or failed, consists of new nodes, and no definition changes. -/
theorem grown_instantiate {shownName : Text} {r : Except TemplateError NodeId}
    (h : e.instantiate t g name args shownName location = .ok (r, e', t')) :
    e.SameDefinitions e' ∧ t.Grown t' ∧ ∀ id, r = .ok id → t.size ≤ id := by
  rcases instantiate_cases h with ⟨err, hfound, rfl, rfl⟩ |
    ⟨node, how, copy, copied, hfound, hcopy, hmade⟩
  · exact ⟨(locate_cases hfound).1, .refl _, nofun⟩
  · obtain ⟨hgrown, hle⟩ := DeclTree.Grown.of_deepCopy hcopy
    refine ⟨(locate_cases hfound).1, ?_⟩
    rcases hmade with ⟨err, rfl, rfl⟩ | ⟨arguments, reduced, expanded, -, hx, rfl, rfl⟩
    · exact ⟨hgrown.modifyNode hle, nofun⟩
    · have hr := Instantiation.rewrites_expand (P := fun i => t.size ≤ i) hle
        (fun a b ha hab => (hgrown.above a b hab ha).1) hx
      refine ⟨(hgrown.rewrites (fun i hi => hi) hr).modifyNode hle, fun id hid => ?_⟩
      cases hid
      exact hle

end TemplateEngine

end BindingTypes
