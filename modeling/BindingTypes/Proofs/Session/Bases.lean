import BindingTypes.Proofs.Registry.Subtyping
import BindingTypes.Proofs.Session.Scopes

namespace BindingTypes

namespace ScopeGraph

variable {g g' : ScopeGraph} {n : Text} {e : TypedefEntry} {ids : List ScopeId}

theorem get?_of_defineClass (hg : InRange g) (h : g.defineClass n = .ok g') :
    g'.current = g.current ∧ (g'.scope g'.current).typedefs.get? n = some ⟨n, true⟩ := by
  unfold defineClass at h
  split at h
  · cases h
  · cases h
    refine ⟨rfl, ?_⟩
    have hscope := scope_modifyScope g g.current g.current fun s =>
      { s with typedefs := s.typedefs.insert n ⟨n, true⟩ }
    rw [if_pos ⟨rfl, hg.current⟩] at hscope
    exact (congrArg (fun s => s.typedefs.get? n) hscope).trans
      ((Table.get?_insert ..).trans (if_pos rfl))

/-- What the current scope declares itself is spelled with the name of that scope. -/
theorem fullName_own (h : (g.scope g.current).typedefs.get? n = some e) :
    g.fullName n = g.nameIn g.current n := by
  rw [fullName, lookup_own h]

theorem spelled_own_ne_nil (hne : n ≠ []) (hcolons : n.after? "::".toList = none)
    (h : (g.scope g.current).typedefs.get? n = some e) : g.spelled n ≠ [] := by
  rw [spelled_eq hne, fullName_own h]
  intro hnil
  cases ha : Text.after? (g.nameIn g.current n) "::".toList with
  | none =>
    rw [ha, Option.getD_none, nameIn, QualifiedName.within] at hnil
    split at hnil
    · exact hne hnil
    · simp at hnil
  | some r =>
    rw [ha, Option.getD_some] at hnil
    subst hnil
    have hfull := Text.after?_eq_some_iff.mp ha
    rw [nameIn, QualifiedName.within] at hfull
    split at hfull
    · rw [hfull] at hcolons
      cases hcolons
    · -- the scope, the separator and the name are longer than a separator
      have hlength := congrArg List.length hfull
      have hpos : 0 < n.length := List.length_pos_iff.mpr hne
      simp only [List.length_append, List.length_nil] at hlength
      omega

theorem spelled_withClassScope (hg : InRange g) (hne : n ≠ [])
    (h : (g.scope g.current).typedefs.get? n = some e) :
    (g.withClassScope n ids).spelled n = g.spelled n := by
  have hkept : ((g.withClassScope n ids).scope g.current).typedefs =
      (g.scope g.current).typedefs ∧ (g.withClassScope n ids).nameOf g.current =
        g.nameOf g.current := scope_withClassScope hg.current
  obtain ⟨htypedefs, hname⟩ := hkept
  have h' : ((g.withClassScope n ids).scope (g.withClassScope n ids).current).typedefs.get? n =
      some e := by
    rw [current_withClassScope, htypedefs, h]
  have hfull : (g.withClassScope n ids).fullName n = g.fullName n := by
    rw [fullName_own h', fullName_own h, current_withClassScope, nameIn, nameIn, hname]
  rw [spelled_eq hne, spelled_eq hne, hfull]

end ScopeGraph

namespace Environment

variable {env : Environment} {n : Text}

theorem subtypeName_unbracketed (hn : CType.Unbracketed n) : env.subtypeName n = .ok n := by
  rw [subtypeName, CType.isTemplate_unbracketed hn]
  rfl

end Environment

namespace Session

open ScopeGraph CType

variable {s s' : Session} {name d k : Text} {bases : List Text} {location : Location}
  {made : Option NodeId} {g : ScopeGraph} {t u : CType}

/-- The edges that the declaration of a class registers: its name and those of its bases, as they
are qualified once the class itself is known. -/
def Records (env : Environment) (g : ScopeGraph) (name : Text) (bases : List Text)
    (d k : Text) : Prop :=
  env.subtypeName (g.spelled name) = .ok d ∧
    ∃ b ∈ bases, env.subtypeName (g.spelled b) = .ok k

/-- What the declaration of a class leaves behind. -/
structure DeclaresClass (s s' : Session) (name : Text) (bases : List Text) (g : ScopeGraph) :
    Prop where
  known : s.environment.graph.defineClass name = .ok g
  graph : ∃ ids, s'.environment.graph = g.withClassScope name ids
  registered : ∀ d k, s'.environment.registry.Registered d k ↔
    s.environment.registry.Registered d k ∨ Records s'.environment g name bases d k

theorem declaresClass_of_declareClass (hname : IsPathText name) (hbases : ∀ b ∈ bases, IsPathText b)
    (h : s.declareClass name bases location = .ok (.ok made, s')) :
    ∃ g, DeclaresClass s s' name bases g := by
  obtain ⟨g, own, ids, known, env, hg, hown, -, hknown, hedges, rfl⟩ := declareClass_eq_ok h
  have hgraph : env.graph = g.withClassScope name ids := graph_addSubtypes hedges
  rw [qualify_eq_spelled hname] at hown
  cases hown
  have hspelled : known = bases.map g.spelled := by
    have hmap : bases.mapM g.qualify = .ok (bases.map g.spelled) :=
      mapM_eq_ok fun b hb => qualify_eq_spelled (hbases b hb)
    exact Except.ok.inj (hknown.symm.trans hmap)
  refine ⟨g, hg, ⟨ids, hgraph⟩, fun d k => ?_⟩
  have hnames : ∀ n, env.subtypeName n = Environment.subtypeName
      { s.environment with graph := g.withClassScope name ids } n := by
    intro n
    rw [Environment.subtypeName, Environment.subtypeName, hgraph]
  rw [Environment.registered_addSubtypes hedges, Records, hspelled]
  simp only [hnames, List.mem_map, exists_exists_and_eq_and]

namespace DeclaresClass

variable (h : DeclaresClass s s' name bases g)
include h

theorem subtype_iff : s'.environment.Subtype t u ↔
    ∃ d k, s'.environment.graph.CanonicalBase t d ∧ s'.environment.graph.CanonicalBase u k ∧
      (s.environment.registry.Registered d k ∨ Records s'.environment g name bases d k) := by
  rw [Environment.subtype_iff]
  simp only [h.registered]

section Kept

variable (hs : ReachedBy NamesGivenOut s.environment.graph)
include hs

theorem inRange : InRange g := (hs.defineClass h.known).inRange

/-- The class is entered in the scope that stays current. -/
theorem own : s'.environment.graph.current = s.environment.graph.current ∧
    (g.scope g.current).typedefs.get? name = some ⟨name, true⟩ ∧
      (s'.environment.graph.scope s'.environment.graph.current).typedefs.get? name =
        some ⟨name, true⟩ := by
  obtain ⟨ids, hgraph⟩ := h.graph
  obtain ⟨hcurrent, hown⟩ := get?_of_defineClass hs.inRange h.known
  have hkept : ((g.withClassScope name ids).scope g.current).typedefs =
      (g.scope g.current).typedefs := (scope_withClassScope (h.inRange hs).current).1
  refine ⟨?_, hown, ?_⟩
  · rw [hgraph, current_withClassScope, hcurrent]
  · rw [hgraph, current_withClassScope, hkept, hown]

/-- A class, and a pointer to it, has the name it was registered under as its base. -/
theorem canonicalBase_class {cs : List Constructor} (hname : IsPathText name) (hne : name ≠ [])
    (hcolons : name.after? "::".toList = none) (hspelled : Unbracketed (g.spelled name))
    (hcs : cs = [] ∨ cs = [.pointer]) :
    s'.environment.graph.CanonicalBase (chain cs name) (g.spelled name) := by
  obtain ⟨ids, hgraph⟩ := h.graph
  obtain ⟨-, hown, hown'⟩ := h.own hs
  have hnonempty := spelled_own_ne_nil hne hcolons hown
  obtain ⟨hplain, hpointer⟩ := means_class hown' hname hcolons hne
  have hsame : s'.environment.graph.spelled name = g.spelled name := by
    rw [hgraph]
    exact spelled_withClassScope (h.inRange hs) hne hown
  rw [hsame] at hplain hpointer
  rcases hcs with rfl | rfl
  · exact canonicalBase_of_means hplain hspelled hnonempty
  · exact canonicalBase_of_means_pointer hpointer hspelled hnonempty

/-- The scope of a new class changes the spelling of no base. -/
theorem spelled_eq {b : Text} (hname : IsIdentifier name) (hnew : g.reopened? name = none)
    (hb : identifiers.IsPath b) : s'.environment.graph.spelled b = g.spelled b := by
  obtain ⟨ids, hgraph⟩ := h.graph
  obtain ⟨-, hown, -⟩ := h.own hs
  rw [hgraph]
  exact (oneMore_withClassScope hnew).spelled_eq (h.inRange hs) (hs.defineClass h.known).nested
    hname (Option.isSome_iff_exists.mpr ⟨_, hown⟩) hb

end Kept

end DeclaresClass

end Session

open ScopeGraph CType Session

/-- A class is the subtype of a base just where both are compared by what they were registered
under. A class always is; a base is where no typedef stands behind it, but a typedef or a
using-declaration is registered by its own name and compared by what it stands for. -/
theorem class_bases_are_subtypes_iff {s s' : Session} {name : Text} {bases : List Text}
    {location : Location} {made : Option NodeId} (hs : s.Reached) (hname : IsPathText name)
    (hbases : ∀ b ∈ bases, IsPathText b)
    (h : s.apply (.declareClass name bases) location = .ok (.ok made, s')) :
    ∃ g, s.environment.graph.defineClass name = .ok g ∧
      s'.environment.graph.current = s.environment.graph.current ∧
      (∀ b ∈ bases, ∀ cs, cs = [] ∨ cs = [.pointer] →
        (s'.environment.Subtype (chain cs name) (chain cs b) ↔
          ∃ d k, s'.environment.graph.CanonicalBase (chain cs name) d ∧
            s'.environment.graph.CanonicalBase (chain cs b) k ∧
            (s.environment.registry.Registered d k ∨
              Records s'.environment g name bases d k))) ∧
      (name ≠ [] → name.after? "::".toList = none → Unbracketed (g.spelled name) →
        (∀ cs, cs = [] ∨ cs = [.pointer] →
          s'.environment.graph.CanonicalBase (chain cs name) (g.spelled name)) ∧
        ∀ b ∈ bases, s'.environment.graph.Expansion b (.ok none) →
          s'.environment.graph.spelled b = g.spelled b → g.spelled b ≠ [] →
          Unbracketed (g.spelled b) →
          s'.environment.Subtype name b ∧
            s'.environment.Subtype (chain [.pointer] name) (chain [.pointer] b)) ∧
      (IsIdentifier name → g.reopened? name = none → ∀ b, identifiers.IsPath b →
        s'.environment.graph.spelled b = g.spelled b) := by
  have hreach := reachedBy_of_reached hs
  obtain ⟨g, hd⟩ := declaresClass_of_declareClass hname hbases h
  have hd : DeclaresClass s s' name bases g := ⟨hd.known, hd.graph, hd.registered⟩
  refine ⟨g, hd.known, (hd.own hreach).1, fun b _ cs _ => hd.subtype_iff, ?_,
    fun hident hnew b hb => hd.spelled_eq hreach hident hnew hb⟩
  intro hne hcolons hspelled
  have hclass : ∀ cs, cs = [] ∨ cs = [.pointer] →
      s'.environment.graph.CanonicalBase (chain cs name) (g.spelled name) :=
    fun cs hcs => hd.canonicalBase_class hreach hname hne hcolons hspelled hcs
  refine ⟨hclass, fun b hb hspent hsame hnonempty hplain => ?_⟩
  have hbase : ∀ cs, cs = [] ∨ cs = [.pointer] →
      s'.environment.graph.CanonicalBase (chain cs b) (g.spelled b) := by
    rw [← hsame] at hnonempty hplain ⊢
    exact fun cs hcs => canonicalBase_spent (hbases b hb) hspent hplain hnonempty hcs
  have hrecorded : Records s'.environment g name bases (g.spelled name) (g.spelled b) :=
    ⟨Environment.subtypeName_unbracketed hspelled, b, hb,
      Environment.subtypeName_unbracketed hplain⟩
  have hsubtype : ∀ cs, cs = [] ∨ cs = [.pointer] →
      s'.environment.Subtype (chain cs name) (chain cs b) := fun cs hcs =>
    hd.subtype_iff.mpr ⟨_, _, hclass cs hcs, hbase cs hcs, Or.inr hrecorded⟩
  exact ⟨hsubtype [] (Or.inl rfl), hsubtype [.pointer] (Or.inr rfl)⟩

/-- A class declared by its own name is the subtype of its base. -/
theorem plain_base_has_subtype : ∃ s s', Reached s ∧
    s.apply (.declareClass "D".toList ["Base".toList]) .synthetic = .ok (.ok none, s') ∧
      s'.environment.Subtype "D".toList "Base".toList ∧
        s'.environment.Subtype "p.D".toList "p.Base".toList := by
  have hrun : (((Session.new {} 20).follow [.declareClass "Base".toList []]).bind fun s =>
      (s.apply (.declareClass "D".toList ["Base".toList]) .synthetic).map fun r =>
        decide (r.1 = .ok none ∧
          ((s.environment.graph.defineClass "D".toList).toOption.map fun g =>
            (g.spelled "D".toList, g.spelled "Base".toList)) = some ("D".toList, "Base".toList) ∧
          r.2.environment.graph.spelled "Base".toList = "Base".toList ∧
          (r.2.environment.graph.withBudget 9).expandType
            ((r.2.environment.graph.withBudget 9).resolveTo .never 9) "Base".toList = .ok none)) =
      .ok true := by decide +kernel
  obtain ⟨s, hs, hrun⟩ := bind_eq_ok hrun
  obtain ⟨⟨o, s'⟩, ha, hrun⟩ := map_eq_ok hrun
  obtain ⟨rfl, hspelled, hsame, hspent⟩ := of_decide_eq_true hrun
  have hr := reached_follow (.new {} 20) hs
  obtain ⟨g, hg, -, -, hclass, -⟩ :=
    class_bases_are_subtypes_iff hr (by decide +kernel) (by decide +kernel) ha
  rw [hg] at hspelled
  obtain ⟨hname, hbase⟩ := Prod.ext_iff.mp (Option.some.inj hspelled)
  have hname : g.spelled "D".toList = "D".toList := hname
  have hbase : g.spelled "Base".toList = "Base".toList := hbase
  have hidentifiers : IsIdentifier "D".toList ∧ IsIdentifier "Base".toList := by decide
  have hunbracketed : Unbracketed "D".toList ∧ Unbracketed "Base".toList :=
    ⟨hidentifiers.1.isWord.unbracketed, hidentifiers.2.isWord.unbracketed⟩
  have hplain := (hclass (by decide) (by decide) (by rw [hname]; exact hunbracketed.1)).2
    "Base".toList List.mem_cons_self (expansion_of_expandType hspent (by simp))
    (by rw [hsame, hbase]) (by rw [hbase]; decide) (by rw [hbase]; exact hunbracketed.2)
  exact ⟨s, s', hr, ha, hplain.1, hplain.2⟩

/-- A class that a typedef renamed, and one of a namespace that a using-declaration brought in. -/
def renamedClasses : List Directive :=
  [.declareClass "Base".toList [], .typedef (chain [] "Base".toList) "B".toList,
    .enterScope (some "N".toList), .declareClass "C".toList [], .leaveScope,
    .usingDeclaration "N::C".toList]

/-- A class with both as its bases is the subtype of neither. -/
theorem renamed_base_has_no_subtype :
    (¬ ∀ (s s' : Session) (name : Text) (bases : List Text) (location : Location)
      (made : Option NodeId), s.Reached → IsPathText name → (∀ b ∈ bases, IsPathText b) →
      s.apply (.declareClass name bases) location = .ok (.ok made, s') → ∀ b ∈ bases,
        s'.environment.Subtype name b ∧
          s'.environment.Subtype (chain [.pointer] name) (chain [.pointer] b)) ∧
    ∃ s s', Reached s ∧
      s.apply (.declareClass "D".toList ["B".toList, "C".toList]) .synthetic =
        .ok (.ok none, s') ∧
      ∀ b ∈ ["B".toList, "C".toList], s'.environment.isSubtype "D".toList b = .ok false ∧
        s'.environment.isSubtype "p.D".toList (chain [.pointer] b) = .ok false := by
  have hrun : (((Session.new {} 20).follow renamedClasses).bind fun s =>
      (s.apply (.declareClass "D".toList ["B".toList, "C".toList]) .synthetic).map fun r =>
        decide (r.1 = .ok none ∧ ∀ b ∈ ["B".toList, "C".toList],
          r.2.environment.isSubtype "D".toList b = .ok false ∧
            r.2.environment.isSubtype "p.D".toList (chain [.pointer] b) = .ok false)) =
      .ok true := by decide +kernel
  obtain ⟨s, hs, hrun⟩ := bind_eq_ok hrun
  obtain ⟨⟨o, s'⟩, ha, hrun⟩ := map_eq_ok hrun
  obtain ⟨rfl, hanswers⟩ := of_decide_eq_true hrun
  have hr := reached_follow (.new {} 20) hs
  refine ⟨fun hall => ?_, s, s', hr, ha, hanswers⟩
  have hsubtype := (hall s s' _ _ _ _ hr (by decide +kernel) (by decide +kernel) ha "B".toList
    List.mem_cons_self).1
  have hanswer : (s'.environment.withBudget s'.environment.graph.budget).isSubtype "D".toList
      "B".toList = .ok false := (hanswers "B".toList List.mem_cons_self).1
  cases (Environment.subtype_iff_of_isSubtype hanswer).mp hsubtype

end BindingTypes
