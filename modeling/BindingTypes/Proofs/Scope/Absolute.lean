import BindingTypes.Proofs.Scope.Answered
import BindingTypes.Proofs.Scope.Course
import BindingTypes.Proofs.Scope.Naming
import BindingTypes.Proofs.Scope.Replacement
import BindingTypes.Proofs.Scope.Skeleton

namespace BindingTypes.ScopeGraph

open CType

variable {v : Vocabulary} {g : ScopeGraph} {n : Text} {d : ScopeId} {e : TypedefEntry}

theorem expandStep_path {found : CType} {start : ScopeId} {resolve : CType → Except Fault CType}
    (hn : v.IsPath n)
    (h : g.lookupName resolve g.current n = .ok (some (some (found, start)))) :
    g.expandStep resolve n = .ok ⟨if found = n then none else some found, some start⟩ := by
  have hsplit : split n = .ok ([], n) := split_chain plain_nil hn.unbracketed hn.ne_nil
  have hbase : ∀ expand, g.expandBase resolve n expand =
      .ok ⟨if found = n then none else some found, some start⟩ := by
    intro expand
    rw [expandBase_simple (isSimple_unbracketed hn.unbracketed) hn.after?_colons]
    exact expandName_found h
  rw [expandStep_of_split hsplit hbase]
  by_cases hsame : found = n
  · simp only [if_pos hsame]
    rfl
  · simp only [if_neg hsame, List.nil_append]

theorem qualifyVia_path (hn : v.IsPath n) (hl : g.lookup g.current n = some (e, d))
    (hname : v.IsPath (g.nameIn d n)) :
    g.qualifyVia .never n = (.ok (g.nameIn d n) : Except Fault CType) := by
  have helement : g.qualifyElement .never n (fun p => g.qualifyVia .never p.1) =
      (.ok (g.nameIn d n) : Except Fault Text) :=
    qualifyElement_simple (isSimple_unbracketed hn.unbracketed)
      (isTemplate_unbracketed hn.unbracketed) hn.after?_enum (qualifyPlain_found _ hl)
      hname.after?_colons
  have hall : ∀ t (_ : t.length ≤ n.length), t ∈ [n] →
      g.qualifyElement .never t (fun p => g.qualifyVia .never p.1) =
        (.ok (g.nameIn d n) : Except Fault Text) := by
    intro t _ ht
    cases List.mem_singleton.mp ht
    exact helement
  rw [qualifyVia, Reuse.never_qualified,
    concatMap_of_elements (elements_unbracketed hn.unbracketed hn.ne_nil) hall]
  simp

theorem reaches_expansionVia (t : CType) :
    g.Reaches (g.expansionVia .always t) (g.expansionVia .never t) :=
  g.reaches.expandStep (s := fun _ => g.resolveVia .never) (fun _ => Alike.refl g)
    (reaches_resolveTo g.budget) t

namespace WellNamed

variable (hg : WellNamed g)
include hg

theorem isPath_nameIn (hn : IsIdentifier n) (d : ScopeId) : identifiers.IsPath (g.nameIn d n) :=
  Vocabulary.isPath_within (hg.paths d) (isName_identifiers.mpr hn)

/-- The name of a typedef inside its scope leads from the global scope to the typedef. -/
theorem lookupName_nameIn (hroot : g.current = globalScope)
    (he : (g.scope d).typedefs.get? n = some e) (resolve : CType → Except Fault CType) :
    g.lookupName resolve g.current (g.nameIn d n) =
      .ok (some (some (g.qualifyExpansion d e.type, d))) := by
  have hd := lt_of_get? he
  rw [hroot]
  rcases hg.paths d with hname | hpath
  · have hglobal : d = globalScope :=
      hg.eq_of_nameOf hd (hroot ▸ hg.current_lt) (hname.trans hg.rootName.symm)
    have htype : g.qualifyExpansion d e.type = e.type := by
      simp [qualifyExpansion, hname]
    rw [htype, nameIn, hname, hglobal]
    exact lookupName_own (hglobal ▸ he)
  · refine lookupName_path resolve hpath (hg.names d n e he).isWord ?_
      (findNamed_root hg.rootName (hg.found hd)) he
    cases ho : (g.scope globalScope).typedefs.get? (g.nameIn d n) with
    | none => rfl
    | some o => exact absurd (hg.names _ _ o ho) (not_isName_nameIn hpath n)

end WellNamed

/-- Different scopes have different names. A name that is seen from the current scope is qualified
by the scope that declares it, and under its qualified name the global scope sees that declaration,
whatever right answers are remembered. -/
theorem qualified_name_absolute (hg : ReachedBy DeclaresIdentifiers g) :
    (∀ i j, i < g.scopes.length → j < g.scopes.length → g.nameOf i = g.nameOf j → i = j) ∧
    ∀ n e d, IsIdentifier n → g.lookup g.current n = some (e, d) →
      (g.scope d).typedefs.get? n = some e ∧
      g.nameIn d n = (if d = globalScope then n else g.nameOf d ++ "::".toList ++ n) ∧
      (∀ m : Memory, m.RightFor g →
        ∃ m', (g.qualifyVia .always n).run m = .ok (g.nameIn d n, m')) ∧
      ∀ m : Memory, m.RightFor (g.select none).2 →
        ∃ m', ((g.select none).2.expansionVia .always (g.nameIn d n)).run m =
          .ok (⟨if g.qualifyExpansion d e.type = g.nameIn d n then none
            else some (g.qualifyExpansion d e.type), some d⟩, m') := by
  have hnamed := hg.wellNamed
  refine ⟨fun i j hi hj => hnamed.eq_of_nameOf hi hj, fun n e d hn hl => ?_⟩
  have he := get?_of_lookup hl
  have hpath := hnamed.isPath_nameIn hn d
  refine ⟨he, ?_, fun m hm => ?_, fun m hm => ?_⟩
  · rw [nameIn, QualifiedName.within]
    by_cases hd : d = globalScope
    · rw [if_pos hd, hd, if_pos hnamed.rootName]
    · rw [if_neg hd, if_neg]
      intro hname
      have hlt := lt_of_get? he
      have hroot : globalScope < g.scopes.length := Nat.lt_of_le_of_lt (Nat.zero_le _) hlt
      exact hd (hnamed.eq_of_nameOf hlt hroot (hname.trans hnamed.rootName.symm))
  · have hplain := qualifyVia_path (.name (isName_identifiers.mpr hn)) hl hpath
    have hreach := reaches_qualifyVia (g := g) n m hm
    rw [hplain] at hreach
    exact ⟨_, hreach.choose_spec.1⟩
  · have hselect := hnamed.select (i := none) fun j hj => by cases hj
    have hfound := hselect.lookupName_nameIn rfl he ((g.select none).2.resolveVia .never)
    have hstep : (g.select none).2.expansionVia .never (g.nameIn d n) = _ :=
      expandStep_path hpath hfound
    have hscopes : (g.select none).2.scopes = g.scopes := rfl
    rw [qualifyExpansion_eq_of_scopes hscopes] at hstep
    have hreach := reaches_expansionVia (g := (g.select none).2) (g.nameIn d n) m hm
    rw [hstep] at hreach
    exact ⟨_, hreach.choose_spec.1⟩

/-- A typedef of a base class, seen from the class that inherits it. -/
theorem qualified_name_absolute_inherited : ∃ g : ScopeGraph, ReachedBy DeclaresIdentifiers g ∧
    g.lookup g.current "T".toList = some (⟨"int".toList, false⟩, 2) ∧
    g.qualify "T".toList = .ok "N::A::T".toList ∧
    (g.select none).2.expansion "N::A::T".toList = .ok ⟨some "int".toList, some 2⟩ := by
  have hg : ReachedBy DeclaresIdentifiers (((((((new 2).editAfresh (.enter "N".toList)).editAfresh
      (.enter "A".toList)).editAfresh (.define "int".toList "T".toList)).editAfresh
      .leave).editAfresh (.enter "B".toList)).editAfresh (.inheritFrom 2)) := by
    refine .editAfresh (.editAfresh (.editAfresh (.editAfresh (.editAfresh (.editAfresh
      (.new 2) ⟨_, rfl, ?_⟩) ⟨_, rfl, ?_⟩) ?_) trivial) ⟨_, rfl, ?_⟩) ?_
    · decide
    · decide
    · show IsIdentifier "T".toList
      decide
    · decide
    · show 2 < _
      decide
  generalize hG : ScopeGraph.editAfresh _ _ = g at hg
  have hlookup : g.lookup g.current "T".toList = some (⟨"int".toList, false⟩, 2) := by
    rw [← hG]
    decide
  have hname : g.nameIn 2 "T".toList = "N::A::T".toList := by
    rw [← hG]
    decide
  have hview : g.qualifyExpansion 2 "int".toList = "int".toList := by
    rw [← hG]
    decide
  obtain ⟨-, habsolute⟩ := qualified_name_absolute hg
  obtain ⟨-, -, hqualify, hexpand⟩ := habsolute "T".toList _ 2 (by decide) hlookup
  rw [hname] at hqualify hexpand
  rw [hview] at hexpand
  obtain ⟨m, hm⟩ := hqualify {} (.empty g)
  obtain ⟨m', hm'⟩ := hexpand {} (.empty _)
  refine ⟨g, hg, hlookup, ?_, ?_⟩
  · rw [qualify, Remembering.afresh, hm]
    rfl
  · rw [expansion, Remembering.afresh, hm']
    rfl

end BindingTypes.ScopeGraph
