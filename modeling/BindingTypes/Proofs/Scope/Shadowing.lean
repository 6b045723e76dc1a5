import BindingTypes.Proofs.Scope.Search

namespace BindingTypes.ScopeGraph

open Relation

/-- Inherited, perhaps through others: reached without a step outward. -/
def Inherits (g : ScopeGraph) : ScopeId → ScopeId → Prop :=
  ReflTransGen fun a b => b ∈ (g.scope a).inherits

variable {g : ScopeGraph} {n : Text} {path : List ScopeId} {id s d next : ScopeId} {k : Nat}
  {turns : List Nat}

/-- The turns below the number of inherited scopes lead to those; the last one leads outward. -/
theorem inherited_or_outward (h : (g.ways id)[k]? = some next) :
    k < (g.scope id).inherits.length ∧ next ∈ (g.scope id).inherits ∨
      k = (g.scope id).inherits.length ∧ (g.scope id).parent = some next := by
  rw [ways] at h
  by_cases hk : k < (g.scope id).inherits.length
  · rw [List.getElem?_append_left hk] at h
    exact Or.inl ⟨hk, List.mem_of_getElem? h⟩
  · have hle := Nat.le_of_not_lt hk
    rw [List.getElem?_append_right hle] at h
    refine Or.inr ?_
    cases hp : (g.scope id).parent with
    | none =>
      rw [hp] at h
      cases h
    | some p =>
      rw [hp, Option.toList_some, List.getElem?_singleton] at h
      split at h
      · rename_i hzero
        exact ⟨Nat.le_antisymm (Nat.sub_eq_zero_iff_le.mp hzero) hle, h⟩
      · cases h

/-- What is inherited is reached by a route that begins with an inherited scope. -/
theorem Inherits.route (h : g.Inherits s d) : ∃ turns, Route g.ways [] s turns d ∧
    ∀ k ∈ turns.head?, k < (g.scope s).inherits.length := by
  obtain ⟨turns, hr⟩ := Route.of_reaches h
  have hways : ∀ (i : ScopeId) (k : Nat) (j : ScopeId), (g.scope i).inherits[k]? = some j →
      (g.ways i)[k]? = some j := by
    intro i k j hk
    rw [ways, List.getElem?_append_left (List.getElem?_eq_some_iff.mp hk).1]
    exact hk
  refine ⟨turns, hr.more hways, fun k hk => ?_⟩
  cases hr with
  | here _ => cases hk
  | step _ hnext _ =>
    cases hk
    exact (List.getElem?_eq_some_iff.mp hnext).1

/-- A route that ends outside what is inherited leads outward from an inherited scope. -/
theorem outward_of_route (hr : Route g.ways path id turns d) (hid : g.Inherits s id)
    (hd : ¬ g.Inherits s d) : ∃ i p, i ∉ path ∧ g.Inherits s i ∧ (g.scope i).parent = some p ∧
      ¬ g.Inherits s p ∧ ReflTransGen g.Leads p d := by
  induction hr with
  | here _ => exact absurd hid hd
  | @step path id next d k turns hfresh hk hr ih =>
    by_cases hnext : g.Inherits s next
    · obtain ⟨i, p, hi, hrest⟩ := ih hnext hd
      exact ⟨i, p, fun hm => hi (List.mem_cons_of_mem _ hm), hrest⟩
    · rcases inherited_or_outward hk with ⟨-, hmem⟩ | ⟨-, hp⟩
      · exact absurd (hid.tail hmem) hnext
      · refine ⟨id, next, hfresh, hid, hp, hnext, ?_⟩
        exact ReflTransGen.mono (fun _ _ => mem_ways.mp) _ _ hr.reaches

/-- Where an inherited scope declares a name, the search finds the name before it leaves the scope
outward. It can still leave an inherited scope outward, and finds an inherited declaration exactly
where some route to one comes before every route to another declaration. -/
theorem visibleTypedef_inherited (hg : ReachedBy NamesGivenOut g) (hs : s < g.scopes.length)
    (hi : ∃ i, g.Inherits s i ∧ g.Defines n i) :
    ∃ e d turns, g.visibleTypedef s n = .ok (some (e, d)) ∧ d < g.scopes.length ∧
      Route g.ways [] s turns d ∧ (g.scope d).typedefs.get? n = some e ∧
      (∀ k ∈ turns.head?, k < (g.scope s).inherits.length) ∧
      (¬ g.Inherits s d → ∃ i p, i ≠ s ∧ g.Inherits s i ∧ (g.scope i).parent = some p ∧
        ¬ g.Inherits s p ∧ ReflTransGen g.Leads p d) ∧
      (g.Inherits s d ↔ ∃ turns₀ i, Route g.ways [] s turns₀ i ∧ g.Defines n i ∧ g.Inherits s i ∧
        ∀ turns' d', Route g.ways [] s turns' d' → g.Defines n d' → ¬ g.Inherits s d' →
          turns₀ < turns') := by
  obtain ⟨i, hinherits, hdefines⟩ := hi
  obtain ⟨turns₀, hr₀, hhead₀⟩ := hinherits.route
  have hsome : (g.lookup s n).isSome := isSome_lookup_iff.mpr ⟨i, reaches_of_route hr₀, hdefines⟩
  obtain ⟨⟨e, d⟩, hfound⟩ := Option.isSome_iff_exists.mp hsome
  obtain ⟨turns, hr, he, hfirst⟩ := lookup_eq_some_iff.mp hfound
  have hd : g.Defines n d := defines_iff.mpr ⟨e, he⟩
  have hhead : ∀ k ∈ turns.head?, k < (g.scope s).inherits.length := by
    intro k hk
    have hle := hfirst turns₀ i hr₀ hdefines
    obtain ⟨rest, rfl⟩ := List.head?_eq_some_iff.mp hk
    cases turns₀ with
    | nil => exact absurd hle (not_le_of_gt List.Lex.nil)
    | cons k₀ rest₀ =>
      refine Nat.lt_of_le_of_lt ?_ (hhead₀ k₀ rfl)
      by_contra hlt
      exact absurd hle (not_le_of_gt (List.Lex.rel (Nat.lt_of_not_le hlt)))
  refine ⟨e, d, turns, ?_, hg.inRange.reaches_lt hs (reaches_of_route hr), hr, he, hhead, fun hnot => ?_, fun hd' => ?_, ?_⟩
  · rw [visibleTypedef_eq hs, hfound]
  · cases hr with
    | here _ => exact absurd .refl hnot
    | @step _ _ next _ k turns _ hk hr =>
      rcases inherited_or_outward hk with ⟨-, hmem⟩ | ⟨heq, -⟩
      · obtain ⟨i, p, hi, hrest⟩ := outward_of_route hr (.single hmem) hnot
        exact ⟨i, p, fun his => hi (his ▸ List.mem_cons_self), hrest⟩
      · exact absurd (hhead k rfl) (heq ▸ Nat.lt_irrefl _)
  · refine ⟨turns, d, hr, hd, hd', fun turns' d' hr' hdefines' hout => ?_⟩
    refine lt_of_le_of_ne (hfirst turns' d' hr' hdefines') ?_
    rintro rfl
    cases hr.unique hr'
    exact hout hd'
  · rintro ⟨turns₁, i₁, hr₁, hdefines₁, -, hbefore⟩
    by_contra hout
    exact absurd (hfirst turns₁ i₁ hr₁ hdefines₁) (not_le_of_gt (hbefore turns d hr hd hout))

/-- A class with a base: `T` is declared in the base and outside. -/
theorem visibleTypedef_inherited_base : ∃ g : ScopeGraph, ReachedBy NamesGivenOut g ∧
    2 < g.scopes.length ∧ g.Inherits 2 1 ∧ g.Defines "T".toList 1 ∧ g.Defines "T".toList 0 ∧
    ∃ e turns, g.visibleTypedef 2 "T".toList = .ok (some (e, 1)) ∧
      Route g.ways [] 2 turns 1 ∧ e = ⟨"int".toList, false⟩ := by
  have hg : ReachedBy NamesGivenOut (((((((new 2).editAfresh (.enter "A".toList)).editAfresh
      (.define "int".toList "T".toList)).editAfresh .leave).editAfresh
      (.define "double".toList "T".toList)).editAfresh (.enter "S".toList)).editAfresh
      (.inheritFrom 1)) := by
    refine .editAfresh (.editAfresh (.editAfresh (.editAfresh (.editAfresh (.editAfresh
      (.new 2) trivial) trivial) trivial) trivial) trivial) ?_
    show 1 < _
    decide
  generalize hG : ScopeGraph.editAfresh _ _ = g at hg
  have hs : 2 < g.scopes.length := by
    rw [← hG]
    decide
  have hinherits : g.Inherits 2 1 := by
    refine .single ?_
    rw [← hG]
    decide
  have hdefines : g.Defines "T".toList 1 := by
    rw [← hG]
    unfold Defines
    decide
  have houtside : g.Defines "T".toList 0 := by
    rw [← hG]
    unfold Defines
    decide
  have hvisible : g.visibleTypedef 2 "T".toList = .ok (some (⟨"int".toList, false⟩, 1)) := by
    rw [← hG]
    decide
  obtain ⟨e, d, turns, hfound, -, hr, -⟩ := visibleTypedef_inherited hg hs ⟨1, hinherits, hdefines⟩
  cases hvisible.symm.trans hfound
  exact ⟨g, hg, hs, hinherits, hdefines, houtside, _, turns, hvisible, hr, rfl⟩

/-- A class with two bases, of which the second declares `T`: what is found is the outer `T`, in
the scope around the first base. -/
theorem inherited_declaration_missed : ¬ ∀ (g : ScopeGraph) (s : ScopeId) (n : Text),
    ReachedBy NamesGivenOut g → s < g.scopes.length → (∃ i, g.Inherits s i ∧ g.Defines n i) →
    ∃ e d, g.visibleTypedef s n = .ok (some (e, d)) ∧ g.Inherits s d := by
  intro hclaim
  have hg : ReachedBy NamesGivenOut ((((((((((new 2).editAfresh (.enter "A".toList)).editAfresh
      .leave).editAfresh (.enter "B".toList)).editAfresh (.define "int".toList "T".toList)).editAfresh
      .leave).editAfresh (.define "double".toList "T".toList)).editAfresh
      (.enter "S".toList)).editAfresh (.inheritFrom 1)).editAfresh (.inheritFrom 2)) := by
    refine .editAfresh (.editAfresh (.editAfresh (.editAfresh (.editAfresh (.editAfresh
      (.editAfresh (.editAfresh (.editAfresh (.new 2) trivial) trivial) trivial) trivial) trivial)
      trivial) trivial) ?_) ?_
    · show 1 < _
      decide
    · show 2 < _
      decide
  generalize hG : ScopeGraph.editAfresh _ _ = g at hg
  have hinherits : g.Inherits 3 2 := by
    refine .single ?_
    rw [← hG]
    decide
  have hdefines : g.Defines "T".toList 2 := by
    rw [← hG]
    unfold Defines
    decide
  have hs : 3 < g.scopes.length := by
    rw [← hG]
    decide
  obtain ⟨e, d, hfound, hd⟩ := hclaim g 3 "T".toList hg hs ⟨2, hinherits, hdefines⟩
  have hvisible : g.visibleTypedef 3 "T".toList = .ok (some (⟨"double".toList, false⟩, 0)) := by
    rw [← hG]
    decide
  cases hvisible.symm.trans hfound
  have honly : ∀ d, g.Inherits 3 d → d ∈ [1, 2, 3] := by
    intro d hd
    induction hd with
    | refl => decide
    | @tail a b _ hstep ih =>
      have hbases : ∀ a ∈ [1, 2, 3], ∀ b ∈ (g.scope a).inherits, b ∈ [1, 2, 3] := by
        rw [← hG]
        decide
      exact hbases a ih b hstep
  exact absurd (honly 0 hd) (by decide)

end BindingTypes.ScopeGraph
