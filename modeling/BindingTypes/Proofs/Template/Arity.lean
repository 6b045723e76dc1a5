import BindingTypes.Proofs.DeclTree.Growth
import BindingTypes.Template.Instantiation

namespace BindingTypes

namespace Instantiation

/-- More arguments are given than there are parameters, or a parameter behind the arguments has no
default. Without parameters, any number of arguments is taken. -/
def Mismatched (ps : List Parameter) (given : Nat) : Prop :=
  (ps ≠ [] ∧ ps.length < given) ∨ ∃ i p, given ≤ i ∧ ps[i]? = some p ∧ p.value = none

variable {ps : List Parameter} {p : Parameter} {given : Nat} {slots : Slots} {own instanceOf : Text}
variable {mismatch : TemplateError} {args : List TemplateArgument} {t t' : DeclTree}
variable {r : Except TemplateError Unit}

theorem mismatches_iff : mismatches ps given = true ↔ Mismatched ps given := by
  have hopen : (ps.drop given).any (fun p => p.value.isNone) = true ↔
      ∃ i p, given ≤ i ∧ ps[i]? = some p ∧ p.value = none := by
    simp only [List.any_eq_true, List.mem_iff_getElem?, List.getElem?_drop, Option.isNone_iff_eq_none]
    constructor
    · rintro ⟨p, ⟨i, hi⟩, hp⟩
      exact ⟨given + i, p, Nat.le_add_right _ _, hi, hp⟩
    · rintro ⟨i, p, hle, hi, hp⟩
      exact ⟨p, ⟨i - given, by rwa [Nat.add_sub_cancel' hle]⟩, hp⟩
  unfold mismatches Mismatched
  rw [Bool.or_eq_true, hopen]
  simp

/-- Every parameter that no argument is left for has a default. -/
def Covered (ps : List Parameter) (given : Nat) : Prop :=
  ∀ i p, given ≤ i → ps[i]? = some p → p.value.isSome

theorem covered_of_not_mismatched (h : ¬ Mismatched ps given) : Covered ps given :=
  fun i p hi hp => Option.isSome_iff_ne_none.mpr fun hnone => h (.inr ⟨i, p, hi, hp, hnone⟩)

theorem Covered.tail (h : Covered (p :: ps) given) : Covered ps (given - 1) :=
  fun i q hi hq => h (i + 1) q (by omega) hq

/-- Replacing a name in the defaults leaves no parameter without one. -/
theorem Covered.map (h : Covered ps given) (f : Text → Text) :
    Covered (ps.map fun p => { p with value := p.value.map f }) given := by
  intro i q hi hq
  rw [List.getElem?_map] at hq
  obtain ⟨p, hp, rfl⟩ := Option.map_eq_some_iff.mp hq
  simpa using h i p hi hp

/-- The first parameter of a covered list gets an argument. -/
theorem Covered.argument (h : Covered (p :: ps) args.length) :
    ∃ arg, args.head?.or (p.value.map (defaultArgument p)) = some arg := by
  cases args with
  | nil =>
    obtain ⟨default, hdefault⟩ := Option.isSome_iff_exists.mp (h 0 p (Nat.le_refl 0) rfl)
    exact ⟨defaultArgument p default, by simp [hdefault]⟩
  | cons arg args => exact ⟨arg, rfl⟩

/-- Where every parameter is covered at the start, the replacing never finds one that is not: a
default is rewritten, but not lost. -/
theorem substituteAll_completes (hc : Covered ps args.length)
    (h : substituteAll slots own instanceOf mismatch ps args t = .ok (r, t')) : r = .ok () := by
  induction hn : ps.length generalizing ps args t with
  | zero =>
    cases List.length_eq_zero_iff.mp hn
    rw [substituteAll] at h
    cases h
    rfl
  | succ n ih =>
    cases ps with
    | nil => cases hn
    | cons p ps =>
      obtain ⟨arg, harg⟩ := hc.argument
      have hlater : Covered ps args.tail.length := List.length_tail ▸ hc.tail
      rw [substituteAll, harg] at h
      dsimp only at h
      cases hname : p.name with
      | none =>
        rw [hname] at h
        exact ih hlater h (by simpa using hn)
      | some name =>
        rw [hname] at h
        obtain ⟨u, -, h⟩ := bind_eq_ok h
        exact ih (hlater.map _) h (by simpa using hn)

/-- The names in the listed types are replaced: those of the parameters, each followed by the name
of the template, or that name alone. -/
def Fills (e : Instantiation) (d : Node) (template : Text) (slots : Slots) (t t' : DeclTree) :
    Prop :=
  let own := QualifiedName.last template
  let instanceOf := template ++ argumentBlock e.instanceArguments
  (d.templateParameters = [] ∧ mapTypes (·.rename own instanceOf) slots.types t = .ok t') ∨
  (d.templateParameters ≠ [] ∧ ∃ mismatch, substituteAll slots own instanceOf mismatch
    d.templateParameters e.arguments t = .ok (.ok (), t'))

theorem fillSlots_fills {e : Instantiation} {d : Node} {template : Text}
    (hfits : ¬ Mismatched d.templateParameters e.arguments.length)
    (h : fillSlots slots (QualifiedName.last template)
      (template ++ argumentBlock e.instanceArguments) mismatch d.templateParameters e.arguments t =
        .ok (r, t')) : r = .ok () ∧ e.Fills d template slots t t' := by
  unfold fillSlots at h
  split at h
  · rename_i hempty
    obtain ⟨u, hu, hut⟩ := map_eq_ok h
    cases hut
    exact ⟨rfl, .inl ⟨List.isEmpty_iff.mp hempty, hu⟩⟩
  · rename_i hsome
    cases substituteAll_completes (covered_of_not_mismatched hfits) h
    exact ⟨rfl, .inr ⟨fun hnil => hsome (List.isEmpty_iff.mpr hnil), _, h⟩⟩

/-- The steps of an expansion that goes through: the visits, the name of the instance, the types and
texts, and the bases. -/
def Expands (e : Instantiation) (d : Node) (template : Text) (t : DeclTree) (id : NodeId)
    (t' : DeclTree) : Prop :=
  ∃ vs u slots w bases, t.visits id = .ok vs ∧
    visitAll ⟨template, e.shownName, argumentBlock e.instanceArguments⟩ vs t = .ok (u, slots) ∧
    e.Fills d template slots (u.modifyNode id fun n => { n with
      name := n.name.map fun _ => template ++ argumentBlock e.instanceArguments }) w ∧
    t' = w.modifyNode id fun n => { n with bases := bases }

variable {e : Instantiation} {g : ScopeGraph} {id : NodeId} {d : Node} {template : Text}

/-- The arguments do not fit and nothing happens, or they do and the expansion goes through. -/
theorem expandInPlace_cases (hd : t.node id = .ok d)
    (htemplate : CType.templateStem (d.name.getD []) = .ok template)
    (h : e.expandInPlace t g id = .ok (r, t')) :
    (Mismatched d.templateParameters e.arguments.length ∧ t' = t ∧
      r = .error (.arityMismatch template d.templateParameters.length e.arguments.length)) ∨
    (¬ Mismatched d.templateParameters e.arguments.length ∧ r = .ok () ∧
      e.Expands d template t id t') := by
  unfold expandInPlace at h
  obtain ⟨d', hd', h⟩ := bind_eq_ok h
  cases hd.symm.trans hd'
  obtain ⟨template', htemplate', h⟩ := bind_eq_ok h
  cases htemplate.symm.trans htemplate'
  dsimp only at h
  split at h
  · rename_i hmismatched
    cases h
    exact .inl ⟨mismatches_iff.mp hmismatched, rfl, rfl⟩
  · rename_i hfits
    have hfits : ¬ Mismatched d.templateParameters e.arguments.length :=
      fun hm => hfits (mismatches_iff.mpr hm)
    obtain ⟨vs, hvs, h⟩ := bind_eq_ok h
    obtain ⟨⟨u, slots⟩, hu, h⟩ := bind_eq_ok h
    obtain ⟨⟨filled, w⟩, hw, h⟩ := bind_eq_ok h
    obtain ⟨rfl, hfills⟩ := fillSlots_fills hfits hw
    obtain ⟨n, -, h⟩ := bind_eq_ok h
    obtain ⟨bases, -, h⟩ := bind_eq_ok h
    cases h
    exact .inr ⟨hfits, rfl, vs, u, slots, w, bases, hvs, hu, hfills, rfl⟩

theorem expandInPlace_reads (h : e.expandInPlace t g id = .ok (r, t')) :
    ∃ d template, t.node id = .ok d ∧ CType.templateStem (d.name.getD []) = .ok template := by
  unfold expandInPlace at h
  obtain ⟨d, hd, h⟩ := bind_eq_ok h
  obtain ⟨template, htemplate, h⟩ := bind_eq_ok h
  exact ⟨d, template, hd, htemplate⟩

/-- A failed expansion leaves the tree as it was. -/
theorem eq_of_expandInPlace_error {err : TemplateError}
    (h : e.expandInPlace t g id = .ok (.error err, t')) : t' = t := by
  obtain ⟨d, template, hd, htemplate⟩ := expandInPlace_reads h
  rcases expandInPlace_cases hd htemplate h with ⟨-, ht, -⟩ | ⟨-, hr, -⟩
  · exact ht
  · cases hr

theorem expand_cases (h : e.expand t g id = .ok (.ok t')) :
    ∃ d template, t.node id = .ok d ∧ CType.templateStem (d.name.getD []) = .ok template ∧
      e.Expands d template t id t' := by
  obtain ⟨⟨r, u⟩, hu, h⟩ := bind_eq_ok h
  obtain ⟨d, template, hd, htemplate⟩ := expandInPlace_reads hu
  rcases expandInPlace_cases hd htemplate hu with ⟨-, -, rfl⟩ | ⟨-, rfl, hexpands⟩
  · cases h
  · cases h
    exact ⟨d, template, hd, htemplate, hexpands⟩

/-- An expansion fails exactly where the arguments do not fit the parameters. The error counts both,
the whole tree is left as it was, and where the arguments fit, no replacing of the parameters, in
whatever slots of whatever tree, comes to a parameter without argument and default. -/
theorem arity_error_exact (hd : t.node id = .ok d)
    (htemplate : CType.templateStem (d.name.getD []) = .ok template) :
    (Mismatched d.templateParameters e.arguments.length → e.expandInPlace t g id =
      .ok (.error (.arityMismatch template d.templateParameters.length e.arguments.length), t)) ∧
    (∀ r t', e.expandInPlace t g id = .ok (r, t') →
      ((∃ err, r = .error err) ↔ Mismatched d.templateParameters e.arguments.length)) ∧
    (¬ Mismatched d.templateParameters e.arguments.length →
      ∀ slots own instanceOf mismatch u r u', substituteAll slots own instanceOf mismatch
        d.templateParameters e.arguments u = .ok (r, u') → r = .ok ()) := by
  refine ⟨fun hm => ?_, fun r t' h => ?_, fun hfits slots own instanceOf mismatch u r u' h =>
    substituteAll_completes (covered_of_not_mismatched hfits) h⟩
  · unfold expandInPlace
    rw [hd]
    show (CType.templateStem (d.name.getD []) >>= _) = _
    rw [htemplate]
    exact if_pos (mismatches_iff.mpr hm)
  · rcases expandInPlace_cases hd htemplate h with ⟨hm, -, rfl⟩ | ⟨hfits, rfl, -⟩
    · exact ⟨fun _ => hm, fun _ => ⟨_, rfl⟩⟩
    · exact ⟨fun ⟨_, herr⟩ => (nomatch herr), fun hm => absurd hm hfits⟩

/-- `template<typename T, typename U = T> class Pair` with a member of type `U`. -/
def defaultedPair : Node :=
  { kind := ⟨.classDecl, true⟩
    name := some "Pair".toList
    templateParameters := [⟨"typename".toList, some "T".toList, none⟩,
      ⟨"typename".toList, some "U".toList, some "T".toList⟩] }

def defaultedTree : DeclTree :=
  ⟨[⟨defaultedPair, none, [1]⟩,
    ⟨{ kind := ⟨.declaration, false⟩, name := some "second".toList, type := some "U".toList },
      some 0, []⟩]⟩

def defaultedWith (args : List TemplateArgument) : Instantiation := ⟨"IntPair".toList, args, args⟩

/-- One argument is enough, none and three are not. -/
theorem defaultedTree_arity :
    defaultedTree.node 0 = .ok defaultedPair ∧
    CType.templateStem (defaultedPair.name.getD []) = .ok "Pair".toList ∧
    (defaultedWith []).expandInPlace defaultedTree (.new 9) 0 =
      .ok (.error (.arityMismatch "Pair".toList 2 0), defaultedTree) ∧
    (defaultedWith [.type "int".toList, .type "int".toList, .value "3".toList]).expandInPlace
      defaultedTree (.new 9) 0 = .ok (.error (.arityMismatch "Pair".toList 2 3), defaultedTree) ∧
    ∃ t', (defaultedWith [.type "int".toList]).expandInPlace defaultedTree (.new 9) 0 =
      .ok (.ok (), t') := by
  have hd : defaultedTree.node 0 = .ok defaultedPair := rfl
  have hstem : CType.templateStem (defaultedPair.name.getD []) = .ok "Pair".toList := rfl
  have hnone : Mismatched defaultedPair.templateParameters 0 :=
    .inr ⟨0, _, Nat.le_refl 0, rfl, rfl⟩
  have hmany : Mismatched defaultedPair.templateParameters 3 := .inl (by decide)
  have hone : ¬ Mismatched defaultedPair.templateParameters 1 :=
    fun h => absurd (mismatches_iff.mpr h) (by decide)
  have hrun : ((defaultedWith [.type "int".toList]).expandInPlace defaultedTree (.new 9) 0).isOk :=
    by decide +kernel
  obtain ⟨⟨r, t'⟩, hr⟩ := exists_of_isOk hrun
  refine ⟨hd, hstem, (arity_error_exact hd hstem).1 hnone, (arity_error_exact hd hstem).1 hmany,
    t', ?_⟩
  cases r with
  | error err => exact absurd (((arity_error_exact hd hstem).2.1 _ _ hr).mp ⟨err, rfl⟩) hone
  | ok => exact hr

end Instantiation

end BindingTypes
