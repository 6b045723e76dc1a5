import BindingTypes.Proofs.DeclTree.Links
import BindingTypes.Proofs.Template.Frame

namespace BindingTypes

/-- All that holds types is the same. -/
structure Node.SameTypes (n n' : Node) : Prop where
  type : n'.type = n.type
  declarator : n'.declarator = n.declarator
  parameters : n'.parameters = n.parameters
  throws : n'.throws = n.throws
  pattern : n'.pattern = n.pattern
  bases : n'.bases = n.bases

namespace Node

variable {n n' : Node} {slot slot' : TypeSlot} {u : CType}

theorem SameTypes.typeAt (h : n.SameTypes n') (slot : TypeSlot) : n'.typeAt slot = n.typeAt slot := by
  cases slot <;> simp [Node.typeAt, h.type, h.declarator, h.parameters, h.throws, h.pattern, h.bases]

theorem type_modify {ps : List Parameter} {i j : Nat} {old : CType}
    (h : ps[i]?.map (·.type) = some old) :
    (ps.modify i ({ · with type := u }))[j]?.map (·.type) =
      if i = j then some u else ps[j]?.map (·.type) := by
  obtain ⟨p, hp, -⟩ := Option.map_eq_some_iff.mp h
  rw [List.getElem?_modify]
  by_cases hij : i = j
  · subst hij
    simp [hp]
  · simp [hij]

theorem type_modify_value (ps : List Parameter) (i j : Nat) (f : Text → Text) :
    (ps.modify i fun p => { p with value := p.value.map f })[j]?.map (·.type) =
      ps[j]?.map (·.type) := by
  rw [List.getElem?_modify, Option.map_eq_map, Option.map_map]
  refine Option.map_congr fun p _ => ?_
  show (if i = j then _ else _ : Parameter).type = _
  split <;> rfl

theorem typeAt_setType {old : CType} (h : n.typeAt slot = some old) (slot' : TypeSlot) :
    (n.setType slot u).typeAt slot' = if slot = slot' then some u else n.typeAt slot' := by
  cases slot with
  | type => cases slot' <;> rfl
  | declarator => cases slot' <;> rfl
  | parameter i =>
    cases slot' with
    | parameter j => simpa [Node.typeAt, setType] using type_modify h
    | _ => rfl
  | throws i =>
    cases slot' with
    | throws j => simpa [Node.typeAt, setType] using type_modify h
    | _ => rfl
  | pattern i =>
    cases slot' with
    | pattern j => simpa [Node.typeAt, setType] using type_modify h
    | _ => rfl
  | base i =>
    cases slot' with
    | base j =>
      have hlt : i < n.bases.length := (List.getElem?_eq_some_iff.mp h).1
      simp [Node.typeAt, setType, List.getElem?_set, hlt]
    | _ => rfl

theorem typeAt_mapText (n : Node) (place : TextSlot) (f : Text → Text) (slot : TypeSlot) :
    (n.mapText place f).typeAt slot = n.typeAt slot := by
  cases place with
  | parameterValue i =>
    cases slot with
    | parameter j => exact type_modify_value n.parameters i j f
    | _ => rfl
  | throwsValue i =>
    cases slot with
    | throws j => exact type_modify_value n.throws i j f
    | _ => rfl
  | patternValue i =>
    cases slot with
    | pattern j => exact type_modify_value n.pattern i j f
    | _ => rfl
  | _ => rfl

end Node

namespace DeclTree

variable {t t' : DeclTree} {id : Nat} {slot : TypeSlot} {f : Node → Node}

/-- The type in a slot of a declaration. -/
def typeAt (t : DeclTree) (id : NodeId) (slot : TypeSlot) : Option CType :=
  t.nodes[id]?.bind (·.node.typeAt slot)

theorem typeAt_of_node {n : Node} (h : t.node id = .ok n) : t.typeAt id slot = n.typeAt slot := by
  obtain ⟨l, hl, rfl⟩ := Option.map_eq_some_iff.mp (node_eq_ok_iff.mp h)
  rw [typeAt, hl]
  rfl

theorem typeAt_modifyNode (i : Nat) : (t.modifyNode id f).typeAt i slot =
    if id = i then t.nodes[id]?.bind fun l => (f l.node).typeAt slot else t.typeAt i slot := by
  unfold typeAt
  rw [modifyNode, getElem?_modifyLinks]
  split
  · rename_i h
    subst h
    cases t.nodes[id]? <;> rfl
  · rfl

/-- A change of a node that keeps a slot. -/
theorem typeAt_modifyNode_of_keeps (h : ∀ n : Node, (f n).typeAt slot = n.typeAt slot) (i : Nat) :
    (t.modifyNode id f).typeAt i slot = t.typeAt i slot := by
  rw [typeAt_modifyNode]
  split
  · rename_i hi
    subst hi
    unfold typeAt
    cases t.nodes[id]? with
    | none => rfl
    | some l => exact h l.node
  · rfl

/-- In a tree whose links agree no declaration is visited twice: what is still to be visited stands
in subtrees that have nothing in common. -/
theorem Linked.nodup_visitsFrom (ht : t.Linked) {fuel : Nat} {ids : List (NodeId × Bool)}
    {vs : List Visit} (hapart : ids.Pairwise fun a b => Disjoint (t.below a.1) (t.below b.1))
    (h : t.visitsFrom fuel ids = .ok vs) : (vs.map (·.id)).Nodup := by
  induction fuel generalizing ids vs with
  | zero =>
    cases ids with
    | nil =>
      cases h
      exact List.nodup_nil
    | cons p ids => cases h
  | succ fuel ih =>
    cases ids with
    | nil =>
      cases h
      exact List.nodup_nil
    | cons p ids =>
      obtain ⟨hp, hids⟩ := List.pairwise_cons.mp hapart
      obtain ⟨linked, hl, hrest | ⟨v, below, vs', hv, hbelow, hrest, rfl⟩⟩ := visitsFrom_cases h
      · exact ih hids hrest
      · have hlt : p.1 < t.size := (List.getElem?_eq_some_iff.mp hl).1
        have hchild : ∀ q ∈ below, t.Holds p.1 q.1 := fun q hq =>
          ⟨linked, hl, hbelow.subset (List.mem_map_of_mem hq)⟩
        have hchildren : below.Pairwise fun a b => Disjoint (t.below a.1) (t.below b.1) := by
          have hnodup : (below.map (·.1)).Nodup :=
            (ht.nodup linked (List.mem_of_getElem? hl)).sublist hbelow
          exact (List.pairwise_map.mp hnodup).imp_of_mem fun ha hb hne =>
            ht.disjoint_below (hchild _ ha) (hchild _ hb) hne
        have hwithin : ∀ q ∈ below, t.below q.1 ⊆ t.below p.1 := fun q hq b hb =>
          mem_below.mpr ⟨(mem_below.mp hb).1, .head (hchild q hq) (mem_below.mp hb).2⟩
        have hwork : (below ++ ids).Pairwise fun a b => Disjoint (t.below a.1) (t.below b.1) :=
          List.pairwise_append.mpr ⟨hchildren, hids, fun a ha b hb =>
            (hp b hb).mono_left (hwithin a ha)⟩
        refine List.nodup_cons.mpr ⟨fun hmem => ?_, ih hwork hrest⟩
        obtain ⟨w, hw, hwid⟩ := List.mem_map.mp hmem
        have hreached : ∃ q ∈ below ++ ids, t.Leads q.1 w.id :=
          mem_of_visitsFrom (P := fun b => ∃ q ∈ below ++ ids, t.Leads q.1 b)
            (fun a b ⟨q, hq, hqa⟩ hab => ⟨q, hq, hqa.tail hab⟩) (fun q hq => ⟨q, hq, .refl⟩)
            hrest w hw
        obtain ⟨q, hq, hlead⟩ := hreached
        rw [show w.id = p.1 from hwid.trans hv] at hlead
        rcases List.mem_append.mp hq with hq | hq
        · exact ht.acyclic p.1 q.1 (hchild q hq) hlead
        · exact Finset.disjoint_left.mp (hp q hq) (mem_below.mpr ⟨hlt, .refl⟩)
            (mem_below.mpr ⟨hlt, hlead⟩)

theorem Linked.nodup_visits (ht : t.Linked) {vs : List Visit} (h : t.visits id = .ok vs) :
    (vs.map (·.id)).Nodup := ht.nodup_visitsFrom (List.pairwise_singleton _ _) h

end DeclTree

namespace Instantiation

variable {t t' : DeclTree} {f : CType → Except Fault CType} {slots : List (NodeId × TypeSlot)}
variable {id : Nat} {slot : TypeSlot}

theorem typeAt_mapTexts (g : Text → Text) (places : List (NodeId × TextSlot)) (t : DeclTree) :
    (mapTexts g places t).typeAt id slot = t.typeAt id slot := by
  unfold mapTexts
  induction places generalizing t with
  | nil => rfl
  | cons e places ih =>
    rw [List.foldl_cons, ih]
    exact DeclTree.typeAt_modifyNode_of_keeps (fun n => n.typeAt_mapText e.2 g slot) id

/-- What the first listed slot becomes, and the walk over the others. -/
theorem mapTypes_cons {e : NodeId × TypeSlot} (h : mapTypes f (e :: slots) t = .ok t') :
    (t.typeAt e.1 e.2 = none ∧ mapTypes f slots t = .ok t') ∨
    ∃ old new u, t.typeAt e.1 e.2 = some old ∧ f old = .ok new ∧ mapTypes f slots u = .ok t' ∧
      ∀ i s, u.typeAt i s = if e = (i, s) then some new else t.typeAt i s := by
  obtain ⟨id, slot⟩ := e
  unfold mapTypes at h
  obtain ⟨n, hn, h⟩ := bind_eq_ok h
  have hat : t.typeAt id slot = n.typeAt slot := DeclTree.typeAt_of_node hn
  split at h
  · exact Or.inl ⟨hat.trans ‹_›, h⟩
  · rename_i old hold
    obtain ⟨new, hnew, h⟩ := bind_eq_ok h
    refine Or.inr ⟨old, new, _, hat.trans hold, hnew, h, fun i s => ?_⟩
    rw [DeclTree.typeAt_modifyNode]
    by_cases hi : id = i
    · subst hi
      obtain ⟨l, hl, rfl⟩ := Option.map_eq_some_iff.mp (DeclTree.node_eq_ok_iff.mp hn)
      rw [if_pos rfl, hl, Option.bind_some, Node.typeAt_setType hold, DeclTree.typeAt, hl]
      by_cases hs : slot = s <;> simp [hs]
    · rw [if_neg hi, if_neg fun he => hi (congrArg Prod.fst he)]

theorem typeAt_mapTypes_of_notMem (hmem : (id, slot) ∉ slots)
    (h : mapTypes f slots t = .ok t') : t'.typeAt id slot = t.typeAt id slot := by
  induction slots generalizing t with
  | nil =>
    cases h
    rfl
  | cons e slots ih =>
    obtain ⟨hne, hmem⟩ := not_or.mp (List.mem_cons.not.mp hmem)
    rcases mapTypes_cons h with ⟨-, hrest⟩ | ⟨old, new, u, -, -, hrest, hu⟩
    · exact ih hmem hrest
    · rw [ih hmem hrest, hu, if_neg (Ne.symm hne)]

/-- A slot that is listed once is changed once. -/
theorem typeAt_mapTypes (hn : slots.Nodup) (hmem : (id, slot) ∈ slots)
    (h : mapTypes f slots t = .ok t') {old : CType} (hold : t.typeAt id slot = some old) :
    ∃ new, f old = .ok new ∧ t'.typeAt id slot = some new := by
  induction slots generalizing t with
  | nil => cases hmem
  | cons e slots ih =>
    obtain ⟨hfresh, hn⟩ := List.nodup_cons.mp hn
    rcases mapTypes_cons h with ⟨hnone, hrest⟩ | ⟨old', new, u, hold', hnew, hrest, hu⟩
    · rcases List.mem_cons.mp hmem with rfl | hmem
      · rw [hold] at hnone
        cases hnone
      · exact ih hn hmem hrest hold
    · rcases List.mem_cons.mp hmem with rfl | hmem
      · cases hold.symm.trans hold'
        exact ⟨new, hnew, by rw [typeAt_mapTypes_of_notMem hfresh hrest, hu, if_pos rfl]⟩
      · have hne : e ≠ (id, slot) := fun he => hfresh (he ▸ hmem)
        exact ih hn hmem hrest (by rw [hu, if_neg hne, hold])

section Visits

variable {names : Names} {v : Visit} {vs : List Visit} {n n' : Node} {own : Slots}

theorem types_slotsOf (h : n.SameTypes n') (id : NodeId) (kind : DeclKind) :
    (slotsOf id kind n').types = (slotsOf id kind n).types := by
  cases kind <;> simp [slotsOf, Slots.append, parametersOf, throwsOf, patternOf, parameterSlots,
    h.parameters, h.throws, h.pattern, h.bases]

/-- The slots of one kind, in one declaration. -/
def places (id : NodeId) (k : Nat) (place : Nat → TypeSlot) : List (NodeId × TypeSlot) :=
  (List.range k).map fun i => (id, place i)

theorem nodup_places (id : NodeId) (k : Nat) (place : Nat → TypeSlot)
    (hplace : Function.Injective place) : (places id k place).Nodup :=
  List.Nodup.map (fun _ _ h => hplace (congrArg Prod.snd h)) List.nodup_range

theorem disjoint_places {id : NodeId} {k : Nat} {place : Nat → TypeSlot}
    {l : List (NodeId × TypeSlot)} (h : ∀ e ∈ l, ∀ i, e.2 ≠ place i) :
    l.Disjoint (places id k place) := by
  intro e he hplace
  obtain ⟨i, -, rfl⟩ := List.mem_map.mp hplace
  exact h _ he i rfl

/-- All slots but those of the bases. -/
theorem nodup_slotsOf_insertion (id : NodeId) (n : Node) :
    (slotsOf id .insertion n).types.Nodup := by
  have hown : ([(id, .type), (id, .declarator)] : List (NodeId × TypeSlot)).Nodup := by simp
  have hparameter := nodup_places id n.parameters.length .parameter fun i j h => by cases h; rfl
  have hpattern := nodup_places id n.pattern.length .pattern fun i j h => by cases h; rfl
  have hthrows := nodup_places id n.throws.length .throws fun i j h => by cases h; rfl
  refine ((hown.append hparameter (disjoint_places ?_)).append hpattern (disjoint_places ?_)).append
    hthrows (disjoint_places ?_)
  · simp
  · simp [places]
  · grind [places]

theorem nodup_slotsOf (id : NodeId) (kind : DeclKind) (n : Node) :
    (slotsOf id kind n).types.Nodup := by
  have hall := nodup_slotsOf_insertion id n
  cases kind with
  | classDecl => exact nodup_places id n.bases.length .base fun i j h => by cases h; rfl
  | constructor =>
    exact hall.sublist ((((List.sublist_cons_self _ _).append_right _).trans
      (List.sublist_append_left _ _)).append_right _)
  | declaration => exact hall.sublist ((List.sublist_append_left _ _).append_right _)
  | destructor => exact List.nodup_nil
  | usingDecl => exact List.nodup_nil
  | _ => exact hall

/-- A visit changes no type and lists the slots by the kind of the declaration. -/
theorem types_visitNode (h : visitNode names v n = .ok (n', own)) :
    n.SameTypes n' ∧ own.types = (slotsOf v.id v.kind n).types := by
  obtain ⟨name, shownName, named, rfl, rfl, htypes, -, -⟩ := visitNode_cases h
  refine ⟨⟨rfl, rfl, rfl, rfl, rfl, rfl⟩, ?_⟩
  show named.types ++ _ = _
  rw [htypes, List.nil_append]
  exact types_slotsOf (n := n) ⟨rfl, rfl, rfl, rfl, rfl, rfl⟩ v.id v.kind

/-- The visits change no type and list the slots of all visited declarations. -/
theorem types_visitAll (h : visitAll names vs t = .ok (t', own)) :
    (∀ id slot, t'.typeAt id slot = t.typeAt id slot) ∧
    ∀ e, e ∈ own.types ↔ ∃ v ∈ vs, ∃ n, t.node v.id = .ok n ∧
      e ∈ (slotsOf v.id v.kind n).types := by
  induction vs generalizing t t' own with
  | nil =>
    cases h
    exact ⟨fun _ _ => rfl, fun e => by simp⟩
  | cons v vs ih =>
    obtain ⟨n, n', first, rest, hn, hvisit, hu, rfl⟩ := visitAll_cons h
    obtain ⟨hsame, hfirst⟩ := types_visitNode hvisit
    obtain ⟨hat, hmem⟩ := ih hu
    obtain ⟨l, hl, hln⟩ := Option.map_eq_some_iff.mp (DeclTree.node_eq_ok_iff.mp hn)
    refine ⟨fun id slot => ?_, fun e => ?_⟩
    · rw [hat, DeclTree.typeAt_modifyNode]
      split
      · rename_i hid
        subst hid
        rw [hl, Option.bind_some, hsame.typeAt, DeclTree.typeAt_of_node hn]
      · rfl
    · -- the slots of a declaration that is visited again are listed alike
      have hagain : ∀ w : Visit, (∃ m, (t.modifyNode v.id fun _ => n').node w.id = .ok m ∧
          e ∈ (slotsOf w.id w.kind m).types) ↔
            ∃ m, t.node w.id = .ok m ∧ e ∈ (slotsOf w.id w.kind m).types := by
        intro w
        simp only [DeclTree.node_eq_ok_iff, DeclTree.modifyNode, DeclTree.getElem?_modifyLinks]
        split
        · rename_i hw
          rw [← hw, hl, Option.map_some, Option.map_some, Option.map_some, hln]
          simp [types_slotsOf hsame]
        · rfl
      show e ∈ first.types ++ rest.types ↔ _
      rw [List.mem_append, hfirst, hmem, List.exists_mem_cons_iff]
      simp only [hagain, hn, Except.ok.injEq, exists_eq_left']

theorem nodup_visitAll (hvs : (vs.map (·.id)).Nodup) (h : visitAll names vs t = .ok (t', own)) :
    own.types.Nodup := by
  induction vs generalizing t t' own with
  | nil =>
    cases h
    exact List.nodup_nil
  | cons v vs ih =>
    obtain ⟨hfresh, hvs⟩ := List.nodup_cons.mp hvs
    obtain ⟨n, n', first, rest, hn, hvisit, hu, rfl⟩ := visitAll_cons h
    have hfirst := (within_visitNode (P := (· = v.id)) rfl hvisit).types
    have hrest := (rewrites_visitAll (P := (· ∈ vs.map (·.id)))
      (fun w hw => List.mem_map_of_mem hw) hu).2.types
    refine List.nodup_append.mpr ⟨?_, ih hvs hu, fun e he e' he' hee => ?_⟩
    · rw [(types_visitNode hvisit).2]
      exact nodup_slotsOf v.id v.kind n
    · rw [hee] at he
      have hid : e'.1 = v.id := hfirst e' he
      have hagain : e'.1 ∈ vs.map (·.id) := hrest e' he'
      rw [hid] at hagain
      exact hfresh hagain

end Visits

end Instantiation

end BindingTypes
