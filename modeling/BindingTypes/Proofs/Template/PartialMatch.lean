import BindingTypes.Proofs.Scope.Degrading
import BindingTypes.Proofs.Scope.Meaning
import BindingTypes.Proofs.Template.Binding

namespace BindingTypes

theorem Settles.mapM {α β : Type} {f : Nat → α → Except Fault β} {l : List α} {bs : List β}
    (h : List.Forall₂ (fun a b => Settles (f · a) (.ok b)) l bs) :
    Settles (fun n => l.mapM (f n)) (.ok bs) := by
  induction h with
  | nil => exact Settles.const _
  | cons hab _ ih =>
    simp only [List.mapM_cons]
    exact Settles.bind_ok hab (Settles.bind_ok ih (Settles.const _))

/-- Neither resolution nor qualification changes the argument. -/
def TemplateArgument.IsReduced (g : ScopeGraph) : TemplateArgument → Prop
  | type t => g.Resolves t (.ok t) ∧ g.Qualifies t (.ok t)
  | value _ => True

namespace TemplateEngine

open CType ScopeGraph

variable {e : TemplateEngine} {t : DeclTree} {g : ScopeGraph} {name : Text}
  {args : List TemplateArgument} {location : Location} {entry : TemplateEntry}
  {before after : List PartialDefinition} {p : PartialDefinition} {fillers : List Text}

theorem reduce_settles (h : ∀ a ∈ args, a.IsReduced g) :
    Settles (fun n => reduce (g.withBudget n) args) (.ok args) := by
  refine Settles.mapM (List.forall₂_same.mpr fun a ha => ?_)
  cases a with
  | value v => exact Settles.const _
  | type t =>
    obtain ⟨hr, hq⟩ := h _ ha
    obtain ⟨k, hk⟩ := (means_of_resolves hr hq).reached
    refine ⟨k, fun n hn => ?_⟩
    show ((g.withBudget n).canonical t).map TemplateArgument.type = _
    rw [hk n hn]
    rfl

theorem base_of_resolves {u w : CType} (h : g.Resolves u (.ok w)) : ∃ b, CType.base u = .ok b := by
  obtain ⟨es, hes⟩ := elements_of_resolves h
  refine ⟨es.getLastD [], ?_⟩
  rw [CType.base, split, hes]
  rfl

theorem generalizeArgument_settles (hg : g.Readable) {a : TemplateArgument} (h : a.IsReduced g) :
    ∃ b, Settles (fun n => generalizeArgument (g.withBudget n) a) (.ok b) := by
  cases a with
  | value v => exact ⟨_, Settles.const _⟩
  | type t =>
    obtain ⟨b, hbase⟩ := base_of_resolves h.1
    obtain ⟨u, n, hn⟩ := degrades_of_resolved hg h.1
    refine ⟨.type (((u.getD t).replaceWhole CType.wildcard b).replaceWhole
      "SWIGENUM".toList b), n, fun k hk => ?_⟩
    have hgeneral : generalize? (g.withBudget k).resolver t = .ok u :=
      hn k (k + t.length + 1) hk (by omega)
    show (CType.base t >>= _) = _
    rw [hbase]
    show (generalize? (g.withBudget k).resolver t >>= _) = _
    rw [hgeneral]
    rfl

/-- A pattern that becomes one of the names is found, unless an earlier one is. -/
theorem matching_of_filled {partials : List PartialDefinition} {names : List Text}
    (hfillers : args.mapM (·.placeholderText) = .ok fillers)
    (hfill : fillFrom 1 fillers p.pattern ∈ names) (hpartials : partials = before ++ p :: after) :
    ∃ first others, matching partials args names = .ok (first :: others) ∧
      first ∈ before ++ [p] := by
  have hfilter : ∃ first others, (partials.filter fun q =>
      names.contains (fillFrom 1 fillers q.pattern)) = first :: others ∧ first ∈ before ++ [p] := by
    have hown : (p :: after).filter (fun q => names.contains (fillFrom 1 fillers q.pattern)) =
        p :: after.filter fun q => names.contains (fillFrom 1 fillers q.pattern) :=
      List.filter_cons_of_pos (List.contains_iff_mem.mpr hfill)
    rw [hpartials, List.filter_append, hown]
    cases hearlier : before.filter fun q => names.contains (fillFrom 1 fillers q.pattern) with
    | nil => exact ⟨p, _, rfl, by simp⟩
    | cons first others =>
      have hmem : first ∈ before := List.mem_of_mem_filter (hearlier ▸ List.mem_cons_self)
      exact ⟨first, _, rfl, List.mem_append_left _ hmem⟩
  obtain ⟨first, others, hfilter, hfirst⟩ := hfilter
  refine ⟨first, others, ?_, hfirst⟩
  have hsome : partials.isEmpty = false := by simp [hpartials]
  unfold matching
  rw [hsome, hfillers, ← hfilter]
  rfl

/-- Among the patterns that match, the first is chosen. -/
theorem locateReduced_of_matching {generals : List TemplateArgument} {q : PartialDefinition}
    {others : List PartialDefinition} {n : Node} {shown spelled : Text}
    (hexplicit : e.specializations.get? (instanceName name args) = none)
    (hentry : e.templates.get? name = some entry)
    (hgenerals : args.mapM (generalizeArgument g) = .ok generals)
    (hmatching : matching entry.partials args [instanceName name args, instanceName name generals] =
      .ok (q :: others))
    (hnode : t.node q.node = .ok n) (hkind : n.kind.isTemplate = true)
    (hshown : nameSpelling q.pattern = .ok shown)
    (hspelled : nameSpelling (instanceName name args) = .ok spelled) :
    e.locateReduced t g name args location =
      .ok (.ok (q.node, .pattern q.pattern), if others.isEmpty then e
        else { e with warnings := e.warnings ++ [⟨spelled, shown, n.location, location⟩] }) := by
  have hcheck : checkTemplate t name q.node = .ok (.ok q.node) := by
    unfold checkTemplate
    rw [hnode]
    simp only [bind, Except.bind, hkind, if_true]
    rfl
  unfold locateReduced
  dsimp only
  rw [hexplicit, hentry]
  simp only [hgenerals, hmatching, hcheck, hnode, hshown, hspelled, bind, Except.bind]
  split <;> rfl

/-- The name of an instance whose pattern is registered finds that pattern or an earlier one. -/
theorem locate_settles (hg : g.Readable) (hreduced : ∀ a ∈ args, a.IsReduced g)
    (hexplicit : e.specializations.get? (instanceName name args) = none)
    (hentry : e.templates.get? name = some entry)
    (hpartials : entry.partials = before ++ p :: after)
    (htemplates : ∀ q ∈ entry.partials, ∃ n, t.node q.node = .ok n ∧ n.kind.isTemplate)
    (hshown : ∀ q ∈ entry.partials, ∃ s, nameSpelling q.pattern = .ok s)
    (hspelled : ∃ s, nameSpelling (instanceName name args) = .ok s)
    (hfillers : args.mapM (·.placeholderText) = .ok fillers)
    (hfill : fillFrom 1 fillers p.pattern = instanceName name args) :
    ∃ q ∈ before ++ [p], ∃ e', Settles
      (fun n => e.locate t (g.withBudget n) name args location)
      (.ok (.ok (q.node, .pattern q.pattern), e')) := by
  have hgeneral : ∀ a ∈ args, ∃ b,
      Settles (fun n => generalizeArgument (g.withBudget n) a) (.ok b) := fun a ha =>
    generalizeArgument_settles hg (hreduced a ha)
  obtain ⟨generals, hgenerals⟩ := exists_forall₂ hgeneral
  have hnames : fillFrom 1 fillers p.pattern ∈
      [instanceName name args, instanceName name generals] := by
    rw [hfill]
    exact List.mem_cons_self
  obtain ⟨first, others, hmatching, hfirst⟩ := matching_of_filled hfillers hnames hpartials
  have hmem : first ∈ entry.partials := by
    rw [hpartials]
    rcases List.mem_append.mp hfirst with hmem | hmem
    · exact List.mem_append_left _ hmem
    · rw [List.mem_singleton.mp hmem]
      exact List.mem_append_right _ List.mem_cons_self
  obtain ⟨node, hnode, hkind⟩ := htemplates first hmem
  obtain ⟨shown, hshown⟩ := hshown first hmem
  obtain ⟨spelled, hspelled⟩ := hspelled
  obtain ⟨k, hk⟩ := Settles.mapM hgenerals
  have hlocated : Settles (fun n => e.locateReduced t (g.withBudget n) name args location)
      (.ok (.ok (first.node, .pattern first.pattern), _)) := ⟨k, fun n hn =>
    locateReduced_of_matching hexplicit hentry (hk n hn) hmatching hnode hkind hshown hspelled⟩
  exact ⟨first, hfirst, _, Settles.bind_ok (reduce_settles hreduced) hlocated⟩

end TemplateEngine

open PatternSlot TemplateEngine

/-- A partial specialization is found for its instances, unless one registered before it matches
too. The names in place of its placeholders are bound to its parameters, but not where the name of
the template has arguments of its own. -/
theorem partial_matches_its_instances {g : ScopeGraph} {e : TemplateEngine} {t : DeclTree}
    {name : Text} {slots : List PatternSlot} {entry : TemplateEntry}
    {before after : List PartialDefinition} {node : NodeId} (location : Location)
    (hg : g.Readable) (hname : '$' ∉ name) (hslots : ∀ s ∈ slots, s.IsProper)
    (hreduced : ∀ s ∈ slots, g.Resolves s.inInstance (.ok s.inInstance) ∧
      g.Qualifies s.inInstance (.ok s.inInstance))
    (hexplicit : e.specializations.get? (instanceName name (instanceArguments slots)) = none)
    (hentry : e.templates.get? name = some entry)
    (hpartials : entry.partials =
      before ++ ⟨instanceName name (patternArguments slots), node⟩ :: after)
    (htemplates : ∀ p ∈ entry.partials, ∃ n, t.node p.node = .ok n ∧ n.kind.isTemplate)
    (hspelled : ∀ p ∈ entry.partials, ∃ s, CType.nameSpelling p.pattern = .ok s) :
    (∃ p ∈ before ++ [⟨instanceName name (patternArguments slots), node⟩], ∃ e', Settles
      (fun n => e.locate t (g.withBudget n) name (instanceArguments slots) location)
      (.ok (.ok (p.node, .pattern p.pattern), e'))) ∧
    ∀ parameters, bindPattern (instanceName name (patternArguments slots)) parameters
        (instanceArguments slots) =
      .ok (if CType.isTemplate name then [] else (chosen slots).take parameters) := by
  have hown := hspelled ⟨instanceName name (patternArguments slots), node⟩ (by simp [hpartials])
  refine ⟨?_, bindPattern_slots hname hslots hown⟩
  have hargs : ∀ a ∈ instanceArguments slots, a.IsReduced g := by
    intro a ha
    obtain ⟨s, hs, rfl⟩ := List.mem_map.mp ha
    exact hreduced s hs
  obtain ⟨fillers, hbases⟩ := exists_forall₂ (R := fun s f => CType.base s.inInstance = .ok f)
    fun s hs => base_of_resolves (hreduced s hs).1
  have hfillers : (instanceArguments slots).mapM (·.placeholderText) = .ok fillers :=
    mapM_of_forall₂ (List.forall₂_map_left_iff.mpr hbases)
  have hfill : fillFrom 1 fillers (instanceName name (patternArguments slots)) =
      instanceName name (instanceArguments slots) := by
    rw [instanceName_patternArguments, instanceName_instanceArguments]
    have hnone : ∀ s ∈ ([] : List PatternSlot), s.IsProper := List.forall_mem_nil _
    exact fillFrom_slots hname hnone hslots hbases
  exact locate_settles hg hargs hexplicit hentry hpartials htemplates hspelled
    (nameSpelling_instance hslots hown) hfillers hfill

/-- `template<typename T> class Inner`. -/
def innerTree : DeclTree :=
  ⟨[⟨{ kind := ⟨.classDecl, true⟩
       name := some "Inner".toList
       templateParameters := [⟨"typename".toList, some "T".toList, none⟩] }, none, []⟩]⟩

/-- With one partial specialization, of the template `name`. -/
def singlePartial (name : Text) (slots : List PatternSlot) : TemplateEngine :=
  TemplateEngine.addPartial {} name (patternArguments slots) 0

/-- Ten names and an array. -/
def manySlots : List PatternSlot :=
  List.replicate 9 (.placeholder [] "int".toList) ++
    [.placeholder [.pointer] "char".toList, .constant "a(4).int".toList]

theorem proper_manySlots : ∀ s ∈ manySlots, s.IsProper := by
  intro s hs
  rcases List.mem_append.mp hs with hs | hs
  · rw [List.eq_of_mem_replicate hs]
    exact ⟨List.forall_mem_nil _, by decide, by decide⟩
  · rcases List.mem_pair.mp hs with rfl | rfl
    · exact ⟨List.forall_mem_singleton.mpr trivial, by decide, by decide⟩
    · have hfour : CType.Balanced "4".toList := by decide
      have harray : CType.Listable (CType.chain [.array "4".toList] "int".toList) :=
        CType.listable_chain (List.forall_mem_singleton.mpr hfour) (.of_plain (by decide))
      exact ⟨harray, by decide, by decide⟩

theorem reduced_manySlots : ∀ s ∈ manySlots,
    (ScopeGraph.new 9).Resolves s.inInstance (.ok s.inInstance) ∧
      (ScopeGraph.new 9).Qualifies s.inInstance (.ok s.inInstance) := by
  have hruns : ∀ s ∈ manySlots,
      (ScopeGraph.new 9).resolveTo .never 9 s.inInstance = (.ok s.inInstance : Except Fault CType) ∧
        ((ScopeGraph.new 9).withBudget 9).qualifyVia .never s.inInstance =
          (.ok s.inInstance : Except Fault CType) := by
    decide +kernel
  exact fun s hs => ⟨ScopeGraph.resolves_of_resolveTo (hruns s hs).1 (by simp),
    ScopeGraph.qualifies_of_run (hruns s hs).2 (by simp)⟩

/-- Each of ten parameters is bound to its name. -/
theorem many_slots_match : ∃ e',
    Settles (fun n => (singlePartial "Inner".toList manySlots).locate innerTree
      ((ScopeGraph.new 9).withBudget n) "Inner".toList (instanceArguments manySlots) .synthetic)
      (.ok (.ok (0, .pattern (instanceName "Inner".toList (patternArguments manySlots))), e')) ∧
    bindPattern (instanceName "Inner".toList (patternArguments manySlots)) 11
      (instanceArguments manySlots) =
      .ok (List.replicate 9 (.type "int".toList) ++ [.type "char".toList]) := by
  have hspelled : (CType.nameSpelling (instanceName "Inner".toList
      (patternArguments manySlots))).isOk = true := by
    decide +kernel
  have hentry : (singlePartial "Inner".toList manySlots).templates.get? "Inner".toList =
      some ⟨none, [⟨instanceName "Inner".toList (patternArguments manySlots), 0⟩]⟩ := rfl
  have hpartials : [⟨instanceName "Inner".toList (patternArguments manySlots), 0⟩] =
      ([] : List PartialDefinition) ++
        ⟨instanceName "Inner".toList (patternArguments manySlots), 0⟩ :: [] := rfl
  have hnode : ∃ n, innerTree.node 0 = .ok n ∧ n.kind.isTemplate := ⟨_, rfl, rfl⟩
  obtain ⟨⟨p, hp, e', hlocated⟩, hbound⟩ := partial_matches_its_instances .synthetic
    (ScopeGraph.readable_new 9) (by decide) proper_manySlots reduced_manySlots rfl hentry
    hpartials (List.forall_mem_singleton.mpr hnode)
    (List.forall_mem_singleton.mpr (exists_of_isOk hspelled))
  cases List.mem_singleton.mp hp
  exact ⟨e', hlocated, hbound 11⟩

/-- Where the name of the template has arguments of its own, nothing is bound. -/
theorem own_arguments_unbound :
    let name := "Outer<(int)>::Inner".toList
    let slots := [PatternSlot.placeholder [.pointer] "int".toList]
    let pattern := instanceName name (patternArguments slots)
    '$' ∉ name ∧ (∀ s ∈ slots, s.IsProper) ∧
      TemplateEngine.reduce (.new 9) (instanceArguments slots) = .ok (instanceArguments slots) ∧
      (singlePartial name slots).locate innerTree (.new 9) name (instanceArguments slots)
        .synthetic = .ok (.ok (0, .pattern pattern), singlePartial name slots) ∧
      chosen slots = [.type "int".toList] ∧
      bindPattern pattern 1 (instanceArguments slots) = .ok [] := by
  refine ⟨by decide, ?_, by decide +kernel, by decide +kernel, rfl, by decide +kernel⟩
  exact List.forall_mem_singleton.mpr
    ⟨List.forall_mem_singleton.mpr trivial, by decide, by decide⟩

end BindingTypes
