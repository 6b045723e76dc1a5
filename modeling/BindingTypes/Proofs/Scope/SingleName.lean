import BindingTypes.Proofs.Scope.Components
import BindingTypes.Proofs.Scope.NewEntry
import BindingTypes.Proofs.Scope.Trail

namespace BindingTypes

namespace QualifiedName

theorem isQualified_of_split {name scope last : Text} (h : split name = (some scope, last)) :
    isQualified name = true := by
  rw [isQualified, Option.isSome_iff_ne_none]
  intro hnone
  rw [split, cutLast?_eq_none_iff.mpr hnone] at h
  cases h

/-- A qualified name is not its last component. -/
theorem ne_of_split {name scope last : Text} (h : split name = (some scope, last)) :
    name ≠ last := by
  rintro rfl
  have hlength := congrArg List.length (append_of_split h)
  simp only [List.length_append, List.length_cons] at hlength
  omega

end QualifiedName

namespace CType

variable {s t : CType}

theorem wraps_single (hs : elements s = .ok [s]) (ht : elements t = .ok [t]) :
    CType.wraps s t = .ok false := by
  have houtline : ∀ {t : CType}, elements t = .ok [t] →
      outline t = .ok ⟨t.measured, 1, t.measured⟩ := by
    intro t ht
    rw [outline, ht]
    rfl
  rw [wraps_of_outline (houtline hs) (houtline ht)]
  simp [Outline.wraps]

end CType

namespace ScopeGraph

open CType Relation

/-- Where the search for a name starts, and for what: a leading `::` starts at the global scope. -/
def origin (g : ScopeGraph) (q : Text) : ScopeId × Text :=
  match q.after? "::".toList with
  | some name => (globalScope, name)
  | none => (g.current, q)

/-- A name is searched from `start` as `n` in the scope `a`, the one that stands in front of it. -/
inductive SearchedIn (g : ScopeGraph) (start : ScopeId) : Text → Text → ScopeId → Prop
  | plain {n : Text} (hsplit : QualifiedName.split n = (none, n)) : SearchedIn g start n n start
  | inner {name scope n : Text} {a : ScopeId} (hown : (g.scope start).typedefs.get? name = none)
      (hsplit : QualifiedName.split name = (some scope, n))
      (hscope : Settles (fun k => (g.withBudget k).findScopeFrom
        ((g.withBudget k).resolveVia .never) start scope) (.ok (some a))) :
      SearchedIn g start name n a

/-- `q` is a single name, and searched as `n` in the scope `a`. -/
structure LooksIn (g : ScopeGraph) (q n : Text) (a : ScopeId) : Prop where
  single : CType.elements q = .ok [q]
  simple : CType.isSimple q = true
  search : g.SearchedIn (g.origin q).1 (g.origin q).2 n a

/-- What a name stands for that the scope `y` holds for `t`. -/
def readAs (g : ScopeGraph) (name : Text) (y : ScopeId) (t : CType) : CType :=
  match QualifiedName.split name with
  | (some _, _) => g.qualifyExpansion y t
  | (none, _) => t

variable {g g' : ScopeGraph} {q n name B : Text} {a start x y : ScopeId} {entry : TypedefEntry}
  {t : CType}

theorem origin_absolute (h : q.after? "::".toList = some name) :
    g.origin q = (globalScope, name) := by
  rw [origin, h]

theorem origin_relative (h : q.after? "::".toList = none) : g.origin q = (g.current, q) := by
  rw [origin, h]

theorem readAs_of_isQualified (h : QualifiedName.isQualified t = true) : g.readAs name y t = t := by
  have hsame : g.qualifyExpansion y t = t := by
    unfold qualifyExpansion
    rw [h]
    rfl
  unfold readAs
  split
  · exact hsame
  · rfl

namespace SearchedIn

theorem of_findNamed {scope : Text} (hown : (g.scope start).typedefs.get? name = none)
    (hsplit : QualifiedName.split name = (some scope, n)) (hplain : CType.isTemplate scope = false)
    (hfind : g.findNamed start scope = some a) : g.SearchedIn start name n a := by
  refine .inner hown hsplit ⟨0, fun k _ => ?_⟩
  have hfind' : (g.withBudget k).findNamed start scope = some a :=
    ((g.alike_withBudget k).findNamed start scope).trans hfind
  show (g.withBudget k).findScopeFrom _ start scope = _
  unfold findScopeFrom
  rw [hplain]
  simp only [Bool.false_eq_true, if_false, pure_bind, hfind']
  rfl

/-- The tables answer for a name as the search for it does. -/
theorem lookupName (h : g.SearchedIn start name n a) (hl : g.lookup a n = some (entry, y)) :
    Settles (fun k => (g.withBudget k).lookupName ((g.withBudget k).resolveVia .never) start name)
      (.ok (some (some (g.readAs name y entry.type, y)))) := by
  have hscopes : ∀ k, (g.withBudget k).scopes = g.scopes := fun _ => rfl
  cases h with
  | plain hsplit =>
    refine ⟨0, fun k _ => ?_⟩
    have hread : g.readAs n y entry.type = entry.type := by
      rw [readAs, hsplit]
    rw [hread]
    cases hown : (g.scope a).typedefs.get? n with
    | some own =>
      cases (lookup_own hown).symm.trans hl
      exact lookupName_own (g := g.withBudget k) hown
    | none =>
      have hown' : ((g.withBudget k).scope a).typedefs.get? n = none := hown
      have hl' : (g.withBudget k).lookup a n = some (entry, y) :=
        (lookup_eq_of_scopes (hscopes k) a n).trans hl
      show (g.withBudget k).lookupName _ a n = _
      unfold ScopeGraph.lookupName
      simp only [hown', hsplit, hl']
      rfl
  | inner hown hsplit hscope =>
    obtain ⟨k₀, hk₀⟩ := hscope
    refine ⟨k₀, fun k hk => ?_⟩
    have hfind := hk₀ k hk
    dsimp only at hfind
    have hread : g.readAs name y entry.type = g.qualifyExpansion y entry.type := by
      rw [readAs, hsplit]
    have hown' : ((g.withBudget k).scope start).typedefs.get? name = none := hown
    have hl' : (g.withBudget k).lookup a n = some (entry, y) :=
      (lookup_eq_of_scopes (hscopes k) a n).trans hl
    unfold ScopeGraph.lookupName
    simp only [hown', hsplit, hfind]
    show Except.ok (some (((g.withBudget k).lookup a n).map fun hit =>
      ((g.withBudget k).qualifyExpansion hit.2 hit.1.type, hit.2))) = _
    rw [hl', hread, ← qualifyExpansion_eq_of_scopes (hscopes k)]
    rfl

end SearchedIn

section Found

variable {resolve : CType → Except Fault CType} {found : CType}
  (hsimple : CType.isSimple q = true)
  (h : g.lookupName resolve (g.origin q).1 (g.origin q).2 = .ok (some (some (found, y))))
include hsimple h

/-- One expansion of a name is what the tables answer. -/
theorem expandBase_of_lookupName
    (expand : { p : CType // p.length < q.length } → Except Fault (Option CType)) :
    g.expandBase resolve q expand =
      .ok ⟨if found = (g.origin q).2 then none else some found, some y⟩ := by
  unfold expandBase
  rw [if_pos hsimple]
  split
  · rename_i name hcolons
    rw [origin_absolute hcolons] at h ⊢
    exact expandName_found h
  · rename_i hcolons
    rw [origin_relative hcolons] at h ⊢
    exact expandName_found h

theorem expandStep_of_lookupName (hsingle : CType.elements q = .ok [q]) :
    g.expandStep resolve q = .ok ⟨if found = (g.origin q).2 then none else some found, some y⟩ := by
  have hsplit : split q = .ok (([] : List Text).flatten, q) := split_of_elements hsingle
  rw [expandStep_of_split hsplit (expandBase_of_lookupName hsimple h)]
  by_cases hsame : found = (g.origin q).2
  · simp only [if_pos hsame]
    rfl
  · simp only [if_neg hsame]
    rfl

end Found

namespace LooksIn

/-- A path is searched in the scope that stands in front of it. -/
theorem of_findNamed {scope : Text} (hq : Unbracketed q) (hcolons : q.after? "::".toList = none)
    (hsplit : QualifiedName.split q = (some scope, n))
    (hown : (g.scope g.current).typedefs.get? q = none)
    (hfind : g.findNamed g.current scope = some a) : g.LooksIn q n a := by
  have htext := QualifiedName.append_of_split hsplit
  have hscope : Unbracketed scope := fun c hc => hq c (htext ▸ List.mem_append_left _ hc)
  have hne : q ≠ [] := by
    rintro rfl
    cases hsplit
  refine ⟨elements_unbracketed hq hne, isSimple_unbracketed hq, ?_⟩
  rw [origin_relative hcolons]
  exact .of_findNamed hown hsplit (isTemplate_unbracketed hscope) hfind

theorem expansionVia (h : g.LooksIn q n a) (hl : g.lookup a n = some (entry, y)) :
    Settles (fun k => (g.withBudget k).expansionVia .never q)
      (.ok ⟨if g.readAs (g.origin q).2 y entry.type = (g.origin q).2 then none
        else some (g.readAs (g.origin q).2 y entry.type), some y⟩) := by
  obtain ⟨k₀, hk₀⟩ := h.search.lookupName hl
  refine ⟨k₀, fun k hk => ?_⟩
  exact expandStep_of_lookupName (g := g.withBudget k) h.simple (hk₀ k hk) h.single

theorem expansion (h : g.LooksIn q n a) (hl : g.lookup a n = some (entry, y)) :
    g.Expansion q (.ok (if g.readAs (g.origin q).2 y entry.type = (g.origin q).2 then none
        else some (g.readAs (g.origin q).2 y entry.type))) := by
  obtain ⟨k₀, hk₀⟩ := h.expansionVia hl
  refine ⟨k₀, fun k hk => ?_⟩
  have hstep := hk₀ k hk
  dsimp only at hstep ⊢
  rw [hstep]
  rfl

end LooksIn

end ScopeGraph

end BindingTypes
