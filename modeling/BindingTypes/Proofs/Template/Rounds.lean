import BindingTypes.Proofs.CType.Rounds
import BindingTypes.Proofs.Template.Slots

namespace BindingTypes

open CType

/-- The walk of an expansion of `id` lists the slot. -/
def DeclTree.Collects (t : DeclTree) (id : NodeId) (e : NodeId × TypeSlot) : Prop :=
  ∃ vs, t.visits id = .ok vs ∧ ∃ v ∈ vs, ∃ n, t.node v.id = .ok n ∧
    e ∈ (Instantiation.slotsOf v.id v.kind n).types

namespace Instantiation

variable {slots : Slots} {instanceOf name : Text} {arg : TemplateArgument}
variable {t t' : DeclTree} {id : Nat} {slot : TypeSlot}

section Substitute

theorem typeAt_substitute_of_notMem {own : Text} (hmem : (id, slot) ∉ slots.types)
    (h : substitute slots own instanceOf name arg t = .ok t') :
    t'.typeAt id slot = t.typeAt id slot := by
  unfold substitute at h
  obtain ⟨spelling, -, h⟩ := bind_eq_ok h
  obtain ⟨u, hu, h⟩ := bind_eq_ok h
  cases h
  rw [typeAt_mapTexts, typeAt_mapTypes_of_notMem hmem hu, typeAt_mapTexts]

/-- A listed type has the parameter replaced, and then the name of the template. -/
theorem typeAt_substitute {x own : Round} (hn : slots.types.Nodup) (hmem : (id, slot) ∈ slots.types)
    (h : substitute slots own.1 (piecesText own.2) x.1 (.type (piecesText x.2)) t = .ok t')
    {old : CType} (hold : t.typeAt id slot = some old) :
    ∃ new, renameAll [x, own] old = .ok new ∧ t'.typeAt id slot = some new := by
  unfold substitute at h
  obtain ⟨spelling, -, h⟩ := bind_eq_ok h
  obtain ⟨u, hu, h⟩ := bind_eq_ok h
  cases h
  obtain ⟨new, hnew, hat⟩ := typeAt_mapTypes hn hmem hu ((typeAt_mapTexts _ _ _).trans hold)
  refine ⟨new, ?_, (typeAt_mapTexts _ _ _).trans hat⟩
  obtain ⟨between, hbetween, hnew⟩ := bind_eq_ok hnew
  have hfirst : old.rename x.1 (piecesText x.2) = .ok between := hbetween
  rw [renameAll_cons, hfirst]
  show renameAll [own] between = _
  rw [renameAll_cons, hnew]
  rfl

/-- The rounds that named parameters with arguments of their own take. -/
structure Takes (replaced : List Round) (ps : List Parameter)
    (args : List TemplateArgument) : Prop where
  names : ps.map (·.name) = replaced.map fun x => some x.1
  arguments : args = replaced.map fun x => .type (piecesText x.2)

variable {own : Round} {replaced : List Round} {ps : List Parameter}
  {args : List TemplateArgument} {mismatch : TemplateError}

/-- One parameter after another is replaced in every listed type. -/
theorem typeAt_substituteAll (hargs : Takes replaced ps args)
    (h : substituteAll slots own.1 (piecesText own.2) mismatch ps args t = .ok (.ok (), t')) :
    ((id, slot) ∉ slots.types → t'.typeAt id slot = t.typeAt id slot) ∧
    ∀ old, slots.types.Nodup → (id, slot) ∈ slots.types → t.typeAt id slot = some old →
      ∃ new, renameAll (replaced.flatMap fun x => [x, own]) old = .ok new ∧
        t'.typeAt id slot = some new := by
  induction replaced generalizing ps args t with
  | nil =>
    obtain ⟨hnames, rfl⟩ := hargs
    cases List.map_eq_nil_iff.mp hnames
    rw [substituteAll] at h
    cases h
    exact ⟨fun _ => rfl, fun old _ _ hold => ⟨old, rfl, hold⟩⟩
  | cons x replaced ih =>
    obtain ⟨hnames, rfl⟩ := hargs
    obtain ⟨p, ps, rfl, hp, hps⟩ := List.map_eq_cons_iff.mp hnames
    rw [substituteAll] at h
    simp only [List.map_cons, List.head?_cons, Option.some_or, hp, List.tail_cons] at h
    obtain ⟨u, hu, h⟩ := bind_eq_ok h
    have hlater : Takes replaced (ps.map fun later =>
        { later with value := later.value.map (·.replaceWhole x.1 (piecesText x.2)) })
        (replaced.map fun x => .type (piecesText x.2)) :=
      ⟨by rw [List.map_map]; exact hps, rfl⟩
    obtain ⟨hother, hlisted⟩ := ih hlater h
    refine ⟨fun hmem => ?_, fun old hn hmem hold => ?_⟩
    · rw [hother hmem, typeAt_substitute_of_notMem hmem hu]
    · obtain ⟨between, hbetween, hat⟩ := typeAt_substitute hn hmem hu hold
      obtain ⟨new, hnew, hat⟩ := hlisted between hn hmem hat
      refine ⟨new, ?_, hat⟩
      rw [List.flatMap_cons, renameAll_append, hbetween]
      exact hnew

end Substitute

/-- Every parameter is followed by the name of the template; without parameters the name is alone. -/
def roundsOf (own : Round) (replaced : List Round) : List Round :=
  if replaced = [] then [own] else replaced.flatMap fun x => [x, own]

/-- Behind one another or not, each name has the same first round. -/
theorem allAtOnce_roundsOf {own : Round} {replaced : List Round}
    (hapart : own.1 ∉ replaced.map (·.1)) :
    allAtOnce (roundsOf own replaced) = allAtOnce (own :: replaced) := by
  unfold roundsOf
  split
  · rename_i hnil
    rw [hnil]
  · rename_i hne
    funext n
    rw [allAtOnce_cons]
    split
    · rename_i hn
      obtain ⟨x, rest, rfl⟩ := List.exists_cons_of_ne_nil hne
      have hx : n ≠ x.1 := fun hx => hapart (hn ▸ hx ▸ List.mem_cons_self)
      rw [List.flatMap_cons, List.cons_append, allAtOnce_cons, if_neg hx, List.cons_append,
        allAtOnce_cons, if_pos hn]
    · rename_i hn
      clear hapart hne
      induction replaced with
      | nil => rfl
      | cons x replaced ih =>
        rw [List.flatMap_cons, List.cons_append, allAtOnce_cons, List.cons_append, allAtOnce_cons,
          if_neg hn, List.nil_append, ih, allAtOnce_cons]

/-- What an expansion of the definition `d` puts in place of its names: a type for each of its named
parameters, and the instance for the template. -/
structure Replaces (e : Instantiation) (d : Node) (own : Round) (replaced : List Round) :
    Prop where
  template : ∃ template, templateStem (d.name.getD []) = .ok template ∧
    own.1 = QualifiedName.last template ∧
    piecesText own.2 = template ++ argumentBlock e.instanceArguments
  takes : Takes replaced d.templateParameters e.arguments
  rounds : ∀ x ∈ own :: replaced, IsRound x

variable {e : Instantiation} {d : Node} {own : Round} {replaced : List Round} {g : ScopeGraph}
  {i : Nat}

theorem isRound_roundsOf (h : ∀ x ∈ own :: replaced, IsRound x) :
    ∀ x ∈ roundsOf own replaced, IsRound x := by
  obtain ⟨hown, hreplaced⟩ := List.forall_mem_cons.mp h
  unfold roundsOf
  split
  · exact List.forall_mem_singleton.mpr hown
  · intro x hx
    obtain ⟨y, hy, hx⟩ := List.mem_flatMap.mp hx
    rcases List.mem_cons.mp hx with rfl | hx
    · exact hreplaced x hy
    · exact List.mem_singleton.mp hx ▸ hown

theorem typeAt_fills {template : Text} {u w : DeclTree} (he : e.Replaces d own replaced)
    (htemplate : templateStem (d.name.getD []) = .ok template)
    (h : e.Fills d template slots u w) :
    ((i, slot) ∉ slots.types → w.typeAt i slot = u.typeAt i slot) ∧
    ∀ old, slots.types.Nodup → (i, slot) ∈ slots.types → u.typeAt i slot = some old →
      ∃ new, renameAll (roundsOf own replaced) old = .ok new ∧ w.typeAt i slot = some new := by
  obtain ⟨template', htemplate', hown, hinstance⟩ := he.template
  cases htemplate.symm.trans htemplate'
  unfold Fills at h
  dsimp only at h
  rw [← hown, ← hinstance] at h
  have hnone : replaced = [] ↔ d.templateParameters = [] := by
    have hlengths := congrArg List.length he.takes.names
    rw [List.length_map, List.length_map] at hlengths
    rw [← List.length_eq_zero_iff, ← List.length_eq_zero_iff, hlengths]
  rcases h with ⟨hparameters, h⟩ | ⟨hparameters, mismatch, h⟩
  · refine ⟨fun hmem => typeAt_mapTypes_of_notMem hmem h, fun old hnodup hmem hold => ?_⟩
    obtain ⟨new, hnew, hat⟩ := typeAt_mapTypes hnodup hmem h hold
    refine ⟨new, ?_, hat⟩
    rw [roundsOf, if_pos (hnone.mpr hparameters), renameAll_cons, hnew]
    rfl
  · rw [roundsOf, if_neg (mt hnone.mp hparameters)]
    exact typeAt_substituteAll he.takes h

/-- Each listed type goes through the rounds, and no other type changes. -/
theorem typeAt_expand (ht : t.Linked) (hd : t.node id = .ok d) (he : e.Replaces d own replaced)
    (h : e.expand t g id = .ok (.ok t')) (hslot : ∀ k, slot ≠ .base k) :
    (¬ t.Collects id (i, slot) → t'.typeAt i slot = t.typeAt i slot) ∧
    ∀ old, t.Collects id (i, slot) → t.typeAt i slot = some old →
      ∃ new, renameAll (roundsOf own replaced) old = .ok new ∧ t'.typeAt i slot = some new := by
  obtain ⟨d', template, hd', htemplate, vs, u, slots, w, bases, hvs, hu, hw, rfl⟩ := expand_cases h
  cases hd.symm.trans hd'
  obtain ⟨hsame, hlisted⟩ := types_visitAll hu
  have hnodup : slots.types.Nodup := nodup_visitAll (ht.nodup_visits hvs) hu
  have hcollects : t.Collects id (i, slot) ↔ (i, slot) ∈ slots.types := by
    rw [hlisted]
    constructor
    · rintro ⟨vs', hvs', hv⟩
      cases hvs.symm.trans hvs'
      exact hv
    · exact fun hv => ⟨vs, hvs, hv⟩
  have hnamed : ∀ name : Text, (u.modifyNode id fun n => { n with
      name := n.name.map fun _ => name }).typeAt i slot = t.typeAt i slot := fun name =>
    (DeclTree.typeAt_modifyNode_of_keeps (fun n => by cases slot <;> rfl) i).trans (hsame i slot)
  have hbases : (w.modifyNode id fun n => { n with bases := bases }).typeAt i slot =
      w.typeAt i slot :=
    DeclTree.typeAt_modifyNode_of_keeps (fun n => by
      cases slot with
      | base k => exact absurd rfl (hslot k)
      | _ => rfl) i
  obtain ⟨hother, hfilled⟩ := typeAt_fills (i := i) he htemplate hw
  rw [hcollects, hbases]
  refine ⟨fun hmem => (hother hmem).trans (hnamed _), fun old hmem hold => ?_⟩
  exact hfilled old hnodup hmem ((hnamed _).trans hold)

/-- After an expansion each type in a slot of a visited declaration went through one round for each
parameter and one for the template's own name after it, in that order: a round replaces a name
wherever it names a type, also in what the rounds before it have put in. Where no round meets such
text, all names are replaced at once. -/
theorem type_slots_after_expansion (ht : t.Linked) (hd : t.node id = .ok d)
    (he : e.Replaces d own replaced) (h : e.expand t g id = .ok (.ok t'))
    (hslot : ∀ k, slot ≠ .base k) :
    (¬ t.Collects id (i, slot) → t'.typeAt i slot = t.typeAt i slot) ∧
    ∀ a, t.Collects id (i, slot) → t.typeAt i slot = some (piecesText a) → IsType a →
      ClearRounds (roundsOf own replaced) a →
      t'.typeAt i slot = some (piecesText (substRounds (roundsOf own replaced) a)) ∧
      (own.1 ∉ replaced.map (·.1) → Undisturbed a [] (roundsOf own replaced) →
        t'.typeAt i slot = some (piecesText (substPieces (allAtOnce (own :: replaced)) a))) := by
  obtain ⟨hother, hlisted⟩ := typeAt_expand (i := i) ht hd he h hslot
  refine ⟨hother, fun a hcollects hat ha hclear => ?_⟩
  obtain ⟨new, hnew, hafter⟩ := hlisted _ hcollects hat
  have hrounds := isRound_roundsOf he.rounds
  have hpieces := renameAll_pieces hrounds ha hclear
  cases hnew.symm.trans hpieces
  refine ⟨hafter, fun hapart hundisturbed => ?_⟩
  rw [hafter, substRounds_undisturbed hrounds ha hundisturbed, allAtOnce_roundsOf hapart]

/-- A class template with a member of the type of its first parameter, and a function that returns
an instance of it with both exchanged. -/
def pairTree : DeclTree :=
  ⟨[⟨{ kind := ⟨.classDecl, true⟩, name := some "Pair".toList,
        templateParameters := [{ type := "typename".toList, name := some "T".toList },
          { type := "typename".toList, name := some "U".toList }] }, none, [1, 2]⟩,
    ⟨{ kind := ⟨.declaration, false⟩, name := some "first".toList, type := some "T".toList },
      some 0, []⟩,
    ⟨{ kind := ⟨.declaration, false⟩, name := some "swapped".toList,
        type := some "Pair<(U,T)>".toList, declarator := some "f().".toList }, some 0, []⟩]⟩

theorem linked_pairTree : pairTree.Linked :=
  DeclTree.linked_of_numbered (by decide) (by decide) (by decide)

/-- A pair of the given types. -/
def pairOf (first second : CType) : Instantiation :=
  ⟨"P".toList, [.type first, .type second], [.type first, .type second]⟩

def pairPieces (first second : Pieces) : Pieces :=
  [.template ["Pair".toList] [first, second] []]

/-- The name of the template, and that of a pair. -/
def pairRound (first second : Pieces) : Round := ("Pair".toList, pairPieces first second)

theorem isType_pairPieces {first second : Pieces} (hfirst : first ≠ [] ∧ IsType first)
    (hsecond : second ≠ [] ∧ IsType second) : IsType (pairPieces first second) :=
  .template (by simp) (List.forall_mem_singleton.mpr (by decide))
    (List.forall_mem_cons.mpr ⟨hfirst, List.forall_mem_singleton.mpr hsecond⟩)

theorem replaces_pairOf {first second : Pieces} (hfirst : IsType first ∧ Based first)
    (hsecond : IsType second ∧ Based second) :
    (pairOf (piecesText first) (piecesText second)).Replaces pairTree.nodes[0].node
      (pairRound first second) [("T".toList, first), ("U".toList, second)] := by
  have hpair := isType_pairPieces ⟨hfirst.2.ne_nil, hfirst.1⟩ ⟨hsecond.2.ne_nil, hsecond.1⟩
  have hpairName : IsIdentifier "Pair".toList := by decide
  have hnames : IsIdentifier "T".toList ∧ IsIdentifier "U".toList := by decide
  refine ⟨⟨"Pair".toList, rfl, rfl, ?_⟩, ⟨rfl, rfl⟩, List.forall_mem_cons.mpr
    ⟨⟨hpairName, hpair, [], _, rfl, rfl⟩, List.forall_mem_cons.mpr
      ⟨⟨hnames.1, hfirst.1, hfirst.2⟩, List.forall_mem_singleton.mpr
        ⟨hnames.2, hsecond.1, hsecond.2⟩⟩⟩⟩
  simp [pairRound, pairPieces, pairOf, piecesText, piecesTexts, Piece.text, pathText_singleton,
    argumentBlock, TemplateArgument.text]

def integerType : Pieces := [.name ["int".toList]]

def textType : Pieces := [.fixed "p.".toList, .name ["char".toList]]

/-- What the function returns. -/
def swappedType : Pieces := pairPieces [.name ["U".toList]] [.name ["T".toList]]

def integerTextRounds : List Round :=
  roundsOf (pairRound integerType textType) [("T".toList, integerType), ("U".toList, textType)]

theorem isType_integerType : IsType integerType ∧ Based integerType :=
  ⟨.single (by decide) (by decide), [], _, rfl, rfl⟩

theorem isType_textType : IsType textType ∧ Based textType :=
  ⟨.pointer (.single (by decide) (by decide)), [.fixed "p.".toList], _, rfl, rfl⟩

theorem isType_swappedType : IsType swappedType :=
  isType_pairPieces ⟨by simp, .single (by decide) (by decide)⟩
    ⟨by simp, .single (by decide) (by decide)⟩

/-- No parameter begins as the name of the template does. -/
theorem clearRounds_swappedType : ClearRounds integerTextRounds swappedType := by
  refine ⟨?_, ?_, ?_, ?_, trivial⟩
  · exact List.forall_mem_singleton.mpr (.template nofun (by simp [Piece.Clear.name]))
  · show ∀ p ∈ pairPieces [.name ["U".toList]] integerType, p.Clear _ _
    exact List.forall_mem_singleton.mpr (.template
      (fun _ => ⟨by decide, fun hne => absurd rfl hne⟩) (by simp [integerType, Piece.Clear.name]))
  · show ∀ p ∈ pairPieces [.name ["U".toList]] integerType, p.Clear _ _
    exact List.forall_mem_singleton.mpr (.template nofun (by simp [integerType, Piece.Clear.name]))
  · show ∀ p ∈ pairPieces textType integerType, p.Clear _ _
    exact List.forall_mem_singleton.mpr (.template
      (fun _ => ⟨by decide, fun hne => absurd rfl hne⟩)
      (by simp [integerType, textType, Piece.Clear.name, Piece.Clear.fixed]))

theorem kept_arguments {n : Text} (r : Pieces) (hn : "int".toList ≠ n ∧ "char".toList ≠ n) :
    (∀ p ∈ integerType, p.Kept (only n r)) ∧ ∀ p ∈ textType, p.Kept (only n r) := by
  have hword : ∀ m, m ≠ n → (Piece.name [m]).Kept (only n r) := fun m hm =>
    .name (List.forall_mem_singleton.mpr (if_neg hm))
  exact ⟨List.forall_mem_singleton.mpr (hword _ hn.1),
    List.forall_mem_cons.mpr ⟨.fixed, List.forall_mem_singleton.mpr (hword _ hn.2)⟩⟩

/-- Neither argument names a parameter or the template. -/
theorem undisturbed_swappedType : Undisturbed swappedType [] integerTextRounds := by
  have hapart : ∀ σ n, ∀ p ∈ swappedType, p.Apart σ n := fun σ n =>
    List.forall_mem_singleton.mpr (.template (by simp [apart_name]))
  have hpair := kept_arguments (pairPieces integerType textType)
    (by decide : "int".toList ≠ "Pair".toList ∧ "char".toList ≠ "Pair".toList)
  have hsecond := kept_arguments textType
    (by decide : "int".toList ≠ "U".toList ∧ "char".toList ≠ "U".toList)
  refine ⟨⟨nofun, hapart _ _⟩, ⟨List.forall_mem_singleton.mpr hpair.1, hapart _ _⟩,
    ⟨List.forall_mem_cons.mpr ⟨hsecond.1, List.forall_mem_singleton.mpr ?_⟩, hapart _ _⟩,
    ⟨List.forall_mem_cons.mpr ⟨hpair.1, List.forall_mem_cons.mpr ⟨?_,
      List.forall_mem_singleton.mpr hpair.2⟩⟩, hapart _ _⟩, trivial⟩
  · exact List.forall_mem_singleton.mpr (.template nofun
      (List.forall_mem_cons.mpr ⟨hsecond.1, List.forall_mem_singleton.mpr hsecond.2⟩))
  · -- the instance stands before its own arguments
    refine List.forall_mem_singleton.mpr (.template (fun n hn r hr => ?_)
      (List.forall_mem_cons.mpr ⟨hpair.1, List.forall_mem_singleton.mpr hpair.2⟩))
    cases hn
    cases hr
    exact ⟨_, _, rfl⟩

/-- In a pair of an integer and a text the function returns a pair of a text and an integer. -/
theorem swapped_pair : ∃ t', (pairOf (piecesText integerType) (piecesText textType)).expand
      pairTree (.new 9) 0 = .ok (.ok t') ∧ t'.typeAt 2 .type = some "Pair<(p.char,int)>".toList := by
  have hrun : ((pairOf (piecesText integerType) (piecesText textType)).expand pairTree (.new 9) 0).map
      (·.toOption.isSome) = .ok true := by decide +kernel
  obtain ⟨r, hr, hsome⟩ := map_eq_ok hrun
  cases r with
  | error err => cases hsome
  | ok t' =>
    have hcollects : pairTree.Collects 0 (2, .type) :=
      ⟨_, rfl, ⟨2, .declaration, false, false⟩, by simp, _, rfl, by decide⟩
    have hslot : ∀ k, TypeSlot.type ≠ .base k := nofun
    have hrounds := (type_slots_after_expansion linked_pairTree rfl
      (replaces_pairOf isType_integerType isType_textType) hr hslot).2 swappedType hcollects rfl
      isType_swappedType clearRounds_swappedType
    exact ⟨t', hr, hrounds.2 (by decide) undisturbed_swappedType⟩

/-- The first member of a pair of `U` and `int` is an `int`: the argument is taken for the second
parameter. -/
theorem argument_taken_for_parameter : ∃ t',
    (pairOf "U".toList "int".toList).expand pairTree (.new 9) 0 = .ok (.ok t') ∧
    pairTree.typeAt 1 .type = some (piecesText [.name ["T".toList]]) ∧
    t'.typeAt 1 .type = some "int".toList ∧
    t'.typeAt 1 .type ≠ some (piecesText (substPieces (allAtOnce
      [pairRound [.name ["U".toList]] [.name ["int".toList]], ("T".toList, [.name ["U".toList]]),
        ("U".toList, [.name ["int".toList]])]) [.name ["T".toList]])) := by
  have hrun : ((pairOf "U".toList "int".toList).expand pairTree (.new 9) 0).map
      (fun r => match r with
        | .ok t => t.typeAt 1 .type
        | .error _ => none) = .ok (some "int".toList) := by decide +kernel
  obtain ⟨r, hr, hat⟩ := map_eq_ok hrun
  cases r with
  | error err => cases hat
  | ok t' =>
    have hafter : t'.typeAt 1 .type = some "int".toList := hat
    have honce : substPieces (allAtOnce [pairRound [.name ["U".toList]] [.name ["int".toList]],
        ("T".toList, [.name ["U".toList]]), ("U".toList, [.name ["int".toList]])])
        [.name ["T".toList]] = [.name ["U".toList]] := rfl
    refine ⟨t', hr, rfl, hafter, ?_⟩
    rw [hafter, honce]
    decide

end Instantiation

end BindingTypes
