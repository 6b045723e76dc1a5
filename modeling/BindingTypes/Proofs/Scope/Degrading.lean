import BindingTypes.Proofs.CType.Generalization
import BindingTypes.Proofs.Scope.Behind
import BindingTypes.Proofs.Scope.Outer
import BindingTypes.Template.Engine

namespace BindingTypes

/-- A value comes out, the same one, with enough of both budgets. -/
def Returns {α : Type} (y : Nat → Nat → Except Fault α) : Prop :=
  ∃ a n, ∀ k m, n ≤ k → n ≤ m → y k m = .ok a

namespace Returns

variable {α β : Type} {x : Except Fault α} {y : Nat → Nat → Except Fault α}

theorem const (h : ∃ a, x = .ok a) : Returns fun _ _ => x := by
  obtain ⟨a, ha⟩ := h
  exact ⟨a, 0, fun _ _ _ _ => ha⟩

theorem map (hy : Returns y) (f : α → β) : Returns fun k m => (y k m).map f := by
  obtain ⟨a, n, hn⟩ := hy
  refine ⟨f a, n, fun k m hk hm => ?_⟩
  show (y k m).map f = _
  rw [hn k m hk hm]
  rfl

end Returns

namespace CType

open Relation

/-- Without its first element the one type is the other. -/
def Uncovers (t s : CType) : Prop := t ≠ [] ∧ ∃ e, next t = .ok (e, s)

variable {t s w e : CType} {es fs : List Text} {b : Text}
  {again : Nat → Nat → CType → Except Fault (Option CType)}

namespace Uncovers

theorem length_lt (h : Uncovers t s) : s.length < t.length := by
  obtain ⟨hne, e, hnext⟩ := h
  exact next_rest_lt hnext hne

theorem elements (h : Uncovers t s) (ht : ∃ es, elements t = .ok es) :
    ∃ es, CType.elements s = .ok es := by
  obtain ⟨hne, e, hnext⟩ := h
  obtain ⟨es, hes⟩ := ht
  rw [elements_of_next hnext hne] at hes
  obtain ⟨tail, htail, -⟩ := map_eq_ok hes
  exact ⟨tail, htail⟩

theorem cases (h : Uncovers t s) (ht : ∃ es, CType.elements t = .ok es) :
    s = [] ∨ ∃ e fs b, t = e ++ s ∧ Dotted e ∧ Composed s fs b := by
  obtain ⟨es, hes⟩ := h.elements ht
  obtain ⟨-, e, hnext⟩ := h
  by_cases hs : s = []
  · exact Or.inl hs
  · obtain ⟨fs, b, hcomposed⟩ := composed_of_elements hes hs
    rcases cutElement_cases (next_eq_ok_iff.mp hnext) with hdot | ⟨hnil, -⟩
    · exact Or.inr ⟨e, fs, b, (next_append hnext).symm, hdot, hcomposed⟩
    · exact Or.inl hnil

end Uncovers

/-- Elements with dots stand in front of what is left, if anything is. -/
theorem uncovered_cases (h : TransGen Uncovers t s) (ht : ∃ es, elements t = .ok es) :
    s = [] ∨ ∃ (es fs : List Text) (b : Text), t = es.flatten ++ s ∧ (∀ e ∈ es, Dotted e) ∧
      Composed s fs b := by
  induction h with
  | single h =>
    refine (h.cases ht).imp id ?_
    rintro ⟨e, fs, b, rfl, he, hs⟩
    exact ⟨[e], fs, b, by simp, List.forall_mem_singleton.mpr he, hs⟩
  | tail _ hlast ih =>
    rcases ih with rfl | ⟨es, fs, b, rfl, hes, hx⟩
    · exact absurd rfl hlast.1
    · refine (hlast.cases ⟨_, hx.elements⟩).imp id ?_
      rintro ⟨e, fs', b', rfl, he, hs⟩
      refine ⟨es ++ [e], fs', b', by simp, fun e' he' => ?_, hs⟩
      rcases List.mem_append.mp he' with he' | he'
      · exact hes e' he'
      · rw [List.mem_singleton.mp he']
        exact he

theorem uncovered_lt (h : TransGen Uncovers t s) : s.length < t.length := by
  induction h with
  | single h => exact h.length_lt
  | tail _ hlast ih => exact Nat.lt_trans hlast.length_lt ih

theorem next_returns (h : ∃ es, elements t = .ok es) : ∃ e s, next t = .ok (e, s) := by
  obtain ⟨es, hes⟩ := h
  by_cases ht : t = []
  · exact ⟨[], [], by rw [ht]; rfl⟩
  · cases hnext : next t with
    | ok r => exact ⟨r.1, r.2, rfl⟩
    | error f =>
      rw [elements_of_error hnext ht] at hes
      cases hes

theorem exists_uncovered (h : ∃ es, elements t = .ok es) (ht : t ≠ []) :
    ∃ e s, next t = .ok (e, s) ∧ Uncovers t s := by
  obtain ⟨e, s, hnext⟩ := next_returns h
  exact ⟨e, s, hnext, ht, e, hnext⟩

theorem ne_nil_of_startsWith {p : Text} (h : t.startsWith p = true) (hp : p ≠ []) : t ≠ [] := by
  rintro rfl
  obtain ⟨u, hu⟩ := Text.startsWith_iff.mp h
  exact hp (List.append_eq_nil_iff.mp hu.symm).1

/-- At most one type is generalized in turn: the type itself, or what stands behind its
qualifier. -/
theorem generalizeUnder_cases (head : Text) (ht : ∃ es, elements t = .ok es) :
    (∃ u, ∀ again, generalizeUnder again head t = .ok u) ∨
      ∃ s f, (s = t ∨ Uncovers t s) ∧ ∀ again, generalizeUnder again head t = (again s).map f := by
  unfold generalizeUnder
  by_cases hw : t = wildcard
  · exact Or.inl ⟨_, fun again => if_pos hw⟩
  simp only [if_neg hw]
  cases hq : isQualifier t with
  | true =>
    obtain ⟨q, s, hnext, hs⟩ := exists_uncovered ht (ne_nil_of_startsWith hq (by decide))
    simp only [if_true, hnext, bind, Except.bind, Bool.true_and]
    by_cases hwild : Text.has s wildcard = true
    · exact Or.inl ⟨_, fun again => if_pos hwild⟩
    refine Or.inr ⟨s, fun r => r.elim (head ++ s) fun general =>
        if s = q ++ general then head ++ general else head ++ q ++ general,
      Or.inr hs, fun again => ?_⟩
    rw [if_neg hwild]
    cases again s with
    | error f => rfl
    | ok r => cases r with
      | none => rfl
      | some general =>
        simp only [Except.map, Option.elim]
        split <;> rfl
  | false =>
    refine Or.inr ⟨t, fun r => head ++ r.getD t, Or.inl rfl, fun again => ?_⟩
    simp only [Bool.false_eq_true, if_false, pure_bind, Bool.false_and]
    cases again t with
    | error f => rfl
    | ok r => cases r with
      | none => rfl
      | some general =>
        simp [Except.map, bind, Except.bind, pure, Except.pure]

theorem returns_generalizeUnder (head : Text) (ht : ∃ es, elements t = .ok es)
    (hself : Returns fun k m => again k m t)
    (hrest : ∀ s, Uncovers t s → Returns fun k m => again k m s) :
    Returns fun k m => generalizeUnder (again k m) head t := by
  rcases generalizeUnder_cases head ht with ⟨u, hu⟩ | ⟨s, f, hs, hmap⟩
  · simp only [hu]
    exact .const ⟨u, rfl⟩
  · simp only [hmap]
    rcases hs with rfl | hs
    · exact hself.map f
    · exact (hrest s hs).map f

theorem cutArrays_returns (ht : ∃ es, elements t = .ok es) :
    ∃ arrays held, cutArrays t = .ok (arrays, held) ∧
      ∀ a ∈ arrays, Kind.of a = .array ∧ Balanced a := by
  induction hn : t.length using Nat.strongRecOn generalizing t with
  | ind n ih =>
    by_cases hne : t = []
    · refine ⟨[], [], ?_, List.forall_mem_nil _⟩
      rw [cutArrays, dif_pos hne]
    obtain ⟨e, s, hnext, hs⟩ := exists_uncovered ht hne
    rw [cutArrays, dif_neg hne]
    split
    · rename_i f hf
      cases hf.symm.trans hnext
    · rename_i e' s' hnext'
      obtain ⟨rfl, rfl⟩ := Prod.mk.inj (Except.ok.inj (hnext'.symm.trans hnext))
      by_cases hk : Kind.of e' = .array
      · obtain ⟨arrays, held, hcut, hall⟩ := ih _ (hn ▸ hs.length_lt) (hs.elements ht) rfl
        obtain ⟨es, hes⟩ := ht
        have hmem : e' ∈ es := by
          rw [elements_of_next hnext hne] at hes
          obtain ⟨tail, -, rfl⟩ := map_eq_ok hes
          exact List.mem_cons_self
        refine ⟨e' :: arrays, held, by rw [if_pos hk, hcut]; rfl, ?_⟩
        exact List.forall_mem_cons.mpr ⟨⟨hk, balanced_of_mem_elements hes hmem⟩, hall⟩
      · exact ⟨[], t, by rw [if_neg hk], List.forall_mem_nil _⟩

/-- The dimensions of the leading arrays can be read. -/
theorem hasEmptyDimension_returns (ht : ∃ es, elements t = .ok es) :
    ∃ empty, hasEmptyDimension t = .ok empty := by
  obtain ⟨arrays, held, hcut, hall⟩ := cutArrays_returns ht
  have hread : ∀ a ∈ arrays, ∃ x, argument a = .ok x := by
    intro a ha
    obtain ⟨hk, hb⟩ := hall a ha
    obtain ⟨c, x, hc, rfl⟩ := opened_of_kind (by rw [hk]; decide) (by rw [hk]; decide)
      (by rw [hk]; decide)
    obtain ⟨inside, hgroup, -⟩ := group?_of_balanced hc hb
    exact ⟨inside, argument_of_group? hgroup⟩
  obtain ⟨dimensions, hdimensions⟩ := mapM_returns_iff.mpr hread
  refine ⟨dimensions.contains [] && !Text.startsWith t "a(ANY).".toList, ?_⟩
  unfold hasEmptyDimension
  simp only [hcut, hdimensions, bind, Except.bind]
  rfl

theorem returns_loosen (ht : ∃ es, elements t = .ok es)
    (hrest : ∀ s, TransGen Uncovers t s → Returns fun k m => again k m s) :
    Returns fun k m => loosen (again k m) t := by
  have hunder : ∀ head s, Uncovers t s → Returns fun k m => generalizeUnder (again k m) head s :=
    fun head s hs => returns_generalizeUnder head (hs.elements ht) (hrest s (.single hs))
      fun s' hs' => hrest s' (.tail (.single hs) hs')
  have hindirect : ∀ c : Constructor, c.IsIndirect → ∀ s, t = c.text ++ s →
      Returns fun k m => loosen (again k m) t := by
    rintro c hc s rfl
    have hs : Uncovers (c.text ++ s) s :=
      ⟨by simp [text_ne_nil], c.text, next_readable hc.readable s⟩
    simp only [loosen_indirect hc]
    split
    · exact .const ⟨_, rfl⟩
    · exact hunder _ _ hs
  cases hp : isPointer t with
  | true =>
    obtain ⟨s, hs⟩ := Text.startsWith_iff.mp hp
    exact hindirect .pointer (Or.inl rfl) s hs
  | false =>
  cases hr : isReference t with
  | true =>
    obtain ⟨s, hs⟩ := Text.startsWith_iff.mp hr
    exact hindirect .reference (Or.inr rfl) s hs
  | false =>
  cases ha : isArray t with
  | true =>
    obtain ⟨e, s, hnext, hs⟩ := exists_uncovered ht (ne_nil_of_startsWith ha (by decide))
    obtain ⟨empty, hempty⟩ := hasEmptyDimension_returns ht
    have hdel : delArray t = .ok s := by
      rw [delArray, if_pos ha, rest, hnext]
      rfl
    simp only [loosen_array hp hr ha, hempty, hdel]
    split
    · exact .const ⟨_, rfl⟩
    · split
      · exact .const ⟨_, rfl⟩
      · exact hunder _ _ hs
  | false =>
  cases hm : isMemberPointer t with
  | true =>
    simp only [loosen_member hp hr ha hm]
    exact .const ⟨_, rfl⟩
  | false =>
    simp only [loosen_name hp hr ha hm]
    exact .const ⟨_, rfl⟩

/-- A type is loosened as it is resolved, or behind the qualifier it resolves to. -/
theorem generalizeFrom_cases (t : CType) (hw : ∃ es, elements w = .ok es) :
    (∃ u, ∀ r n, r.resolve t = .ok w → generalizeFrom r (n + 1) t = .ok u) ∨
      ∃ s, (s = w ∨ Uncovers w s) ∧ ∀ r n, r.resolve t = .ok w → generalizeFrom r (n + 1) t =
        (loosen (generalizeFrom r n) s).map fun general =>
          if general = t then none else some general := by
  by_cases hdots : isVarargs t = true
  · exact Or.inl ⟨none, fun r n _ => by rw [generalizeFrom, if_pos hdots]; rfl⟩
  have hmap : ∀ x : Except Fault CType, (x >>= fun general =>
      pure (if general = t then none else some general)) =
        x.map fun general => if general = t then none else some general := fun x => by
    cases x <;> rfl
  cases hq : isQualifier w with
  | true =>
    obtain ⟨q, s, hnext, hs⟩ := exists_uncovered hw (ne_nil_of_startsWith hq (by decide))
    have hrest : rest w = .ok s := by
      rw [rest, hnext]
      rfl
    by_cases hwild : Text.has s wildcard = true
    · refine Or.inl ⟨some s, fun r n hr => ?_⟩
      rw [generalizeFrom, if_neg hdots, hr]
      simp only [bind, Except.bind, hq, if_true, hrest, Bool.true_and, hwild]
      rfl
    · refine Or.inr ⟨s, Or.inr hs, fun r n hr => ?_⟩
      rw [generalizeFrom, if_neg hdots, hr, ← hmap]
      simp only [bind, Except.bind, hq, if_true, hrest, Bool.true_and, hwild]
      rfl
  | false =>
    refine Or.inr ⟨w, Or.inl rfl, fun r n hr => ?_⟩
    rw [generalizeFrom, if_neg hdots, hr, ← hmap]
    simp only [bind, Except.bind, hq, pure, Except.pure, Bool.false_and, Bool.false_eq_true,
      if_false]

end CType

namespace ScopeGraph

open CType Relation

variable {g : ScopeGraph} {t w s : CType}

theorem resolve_of_resolves {r : Except Fault CType} (h : g.Resolves t r)
    (hr : r ≠ .error .exhausted) : ∃ n, ∀ k, n ≤ k → (g.withBudget k).resolve t = r := by
  obtain ⟨n, hn⟩ := h
  have hsame := sameOutcomes_of_follows (Memory.RightFor.empty g)
    (x := fun n => (g.withBudget n).resolveVia .always t)
    (fun n => follows_resolveTo n t) (fun n => reaches_resolveTo n t)
  exact ⟨n, fun k hk => (hsame r k hr).2 (hn k hk)⟩

/-- Generalization comes to an end with enough budget. -/
def Degrades (g : ScopeGraph) (t : CType) : Prop :=
  Returns fun k m => generalizeFrom (g.withBudget k).resolver m t

theorem degrades_of_resolves (h : g.Resolves t (.ok w)) (hw : ∃ es, elements w = .ok es)
    (hrest : ∀ s, TransGen Uncovers w s → g.Degrades s) : g.Degrades t := by
  obtain ⟨n, hn⟩ := resolve_of_resolves h (by simp)
  rcases generalizeFrom_cases t hw with ⟨u, hu⟩ | ⟨s, hs, hloosen⟩
  · refine ⟨u, n + 1, fun k m hk hm => ?_⟩
    obtain ⟨m, rfl⟩ : ∃ j, m = j + 1 := ⟨m - 1, by omega⟩
    exact hu _ m (hn k (by omega))
  · have hreturns : Returns fun k m => loosen (generalizeFrom (g.withBudget k).resolver m) s := by
      rcases hs with rfl | hs
      · exact returns_loosen hw hrest
      · exact returns_loosen (hs.elements hw) fun s' hs' => hrest s' (.head hs hs')
    obtain ⟨u, n', hn'⟩ := hreturns
    refine ⟨if u = t then none else some u, max n n' + 1, fun k m hk hm => ?_⟩
    obtain ⟨m, rfl⟩ : ∃ j, m = j + 1 := ⟨m - 1, by omega⟩
    have hout : loosen (generalizeFrom (g.withBudget k).resolver m) s = .ok u :=
      hn' k m (by omega) (by omega)
    have hstep := hloosen (g.withBudget k).resolver m (hn k (by omega))
    rwa [hout] at hstep

theorem elements_of_expansion {r : Option CType} (h : g.Expansion t (.ok r)) :
    ∃ es, elements t = .ok es := by
  obtain ⟨n, hn⟩ := h.expandType (by simp)
  exact split_of_expandType (hn n n (Nat.le_refl n) (Nat.le_refl n))

theorem elements_of_resolves (h : g.Resolves t (.ok w)) : ∃ es, elements t = .ok es := by
  obtain ⟨n, hn⟩ := h
  have hloop := hn (n + 1) (Nat.le_succ n)
  change Resolver.chase ((g.withBudget (n + 1)).expandType
    ((g.withBudget (n + 1)).resolveTo .never n)) (n + 2) [] t = .ok w at hloop
  unfold Resolver.chase at hloop
  obtain ⟨expanded, hexpanded, -⟩ := bind_eq_ok hloop
  exact split_of_expandType hexpanded

variable (hg : g.Readable)
include hg

/-- What is left of a type that no typedef expands is not expanded either. -/
theorem spent_of_uncovered (hw : g.Expansion w (.ok none)) (h : TransGen Uncovers w s) :
    g.Expansion s (.ok none) := by
  rcases uncovered_cases h (elements_of_expansion hw) with rfl | ⟨es, fs, b, rfl, hes, hs⟩
  · exact hg.expansion_nil
  · exact hw.spent_behind hes hs

theorem degrades_of_spent (h : g.Resolves t (.ok w)) (hw : g.Expansion w (.ok none)) :
    g.Degrades t := by
  induction hn : w.length using Nat.strongRecOn generalizing t w with
  | ind n ih =>
    refine degrades_of_resolves h (elements_of_expansion hw) fun s hs => ?_
    have hspent := spent_of_uncovered hg hw hs
    exact ih _ (hn ▸ uncovered_lt hs) (resolves_of_spent hspent) hspent rfl

/-- A type that resolution leaves as it is can be generalized. -/
theorem degrades_of_resolved (h : g.Resolves t (.ok t)) : g.Degrades t := by
  induction hn : t.length using Nat.strongRecOn generalizing t with
  | ind n ih =>
    have ht := elements_of_resolves h
    refine degrades_of_resolves h ht fun s hs => ?_
    rcases uncovered_cases hs ht with rfl | ⟨es, fs, b, rfl, hes, hcomposed⟩
    · have hnil := hg.expansion_nil
      exact degrades_of_spent hg (resolves_of_spent hnil) hnil
    · obtain ⟨w, hw, rfl | hspent⟩ := rests_behind hg hes hcomposed h
      · exact ih _ (hn ▸ uncovered_lt hs) hw rfl
      · exact degrades_of_spent hg hw hspent

end ScopeGraph

end BindingTypes
