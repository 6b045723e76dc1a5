import BindingTypes.Proofs.Scope.Absolute
import BindingTypes.Proofs.Scope.Congruence
import BindingTypes.Proofs.Scope.Trail

namespace BindingTypes.ScopeGraph

open CType

variable {α : Type} {g : ScopeGraph} {t : CType} {cs : List Constructor} {c : Constructor}

/-- What work comes to that starts with nothing answered, with some budget, is what the plain work
settles at. -/
theorem settles_iff_afresh {x : Nat → Remembering α} {y : Nat → Except Fault α} {r : Except Fault α}
    (hx : ∀ n, (g.withBudget n).Follows (x n) y)
    (hy : ∀ n, (g.withBudget n).Reaches (x n) (y n)) (hr : r ≠ .error .exhausted) :
    Settles y r ↔ ∃ n, (x n).afresh = r := by
  have hsame : SameOutcomes {} x y := sameOutcomes_of_follows (Memory.RightFor.empty g) hx hy
  constructor
  · rintro ⟨n, hn⟩
    exact ⟨n, (hsame r n hr).2 (hn n (Nat.le_refl n))⟩
  · rintro ⟨n, hn⟩
    exact (hsame r n hr).1 hn

theorem resolves_iff_resolve {r : Except Fault CType} (hr : r ≠ .error .exhausted) :
    g.Resolves t r ↔ ∃ n, (g.withBudget n).resolve t = r := by
  have hx : ∀ n, (g.withBudget n).Follows ((g.withBudget n).resolveVia .always t) fun k =>
      (g.withBudget k).resolveVia .never t := fun n => follows_resolveTo n t
  have hy : ∀ n, (g.withBudget n).Reaches ((g.withBudget n).resolveVia .always t)
      ((g.withBudget n).resolveVia .never t) := fun n => reaches_resolveTo n t
  exact settles_iff_afresh hx hy hr

theorem expansion_iff_expand? {r : Except Fault (Option CType)} (hr : r ≠ .error .exhausted) :
    g.Expansion t r ↔ ∃ n, (g.withBudget n).expand? t = r := by
  have hx : ∀ n, (g.withBudget n).Follows (Step.type <$> (g.withBudget n).expansionVia .always t)
      fun k => Step.type <$> (g.withBudget k).expansionVia .never t := fun n =>
    (g.withBudget n).follows.map Step.type (follows_expansionVia (g := g.withBudget n) t)
  have hy : ∀ n, (g.withBudget n).Reaches (Step.type <$> (g.withBudget n).expansionVia .always t)
      (Step.type <$> (g.withBudget n).expansionVia .never t) := fun n =>
    (g.withBudget n).reaches.map (x := (g.withBudget n).expansionVia .always t)
      (y := fun _ => (g.withBudget n).expansionVia .never t) Step.type (reaches_expansionVia t)
  have hafresh : ∀ n, (Step.type <$> (g.withBudget n).expansionVia .always t).afresh =
      (g.withBudget n).expand? t := fun n => Remembering.afresh_map _ _
  simp only [← hafresh]
  exact settles_iff_afresh hx hy hr

/-- One expansion goes past constructors that name no type. -/
theorem expand?_chain (hcs : ∀ c ∈ cs, c.IsNameless) (ht : t ≠ []) :
    g.expand? (chain cs t) = (g.expand? t).map (Option.map (chain cs)) := by
  have hstep : (·.type) <$> g.expansionVia .always (chain cs t) =
      Option.map (chain cs) <$> ((·.type) <$> g.expansionVia .always t) := by
    unfold expansionVia
    rw [expandStep_chain hcs ht, Functor.map_map, Functor.map_map]
  calc g.expand? (chain cs t)
      = ((·.type) <$> g.expansionVia .always (chain cs t)).afresh :=
        (Remembering.afresh_map _ _).symm
    _ = ((·.type) <$> g.expansionVia .always t).afresh.map (Option.map (chain cs)) := by
        rw [hstep, Remembering.afresh_map]
    _ = (g.expand? t).map (Option.map (chain cs)) := by
        rw [Remembering.afresh_map]
        rfl

/-- A pointer, a reference, an array or a qualifier in front of a type stays there in one expansion
and in all of them, whatever they come to with a budget. With no bound on the budget the one type
is expanded or resolved where the other is. -/
theorem outer_constructor_stays (hg : g.TargetsNonempty) (hc : c.IsNameless) (ht : t ≠ []) :
    g.expand? (c.text ++ t) = (g.expand? t).map (Option.map (c.text ++ ·)) ∧
    g.resolve (c.text ++ t) = (g.resolve t).map (c.text ++ ·) ∧
    (∀ r, g.Expansion (c.text ++ t) (.ok r) ↔
      ∃ r', g.Expansion t (.ok r') ∧ r = r'.map (c.text ++ ·)) ∧
    ∀ u, g.Resolves (c.text ++ t) (.ok u) ↔ ∃ v, g.Resolves t (.ok v) ∧ u = c.text ++ v := by
  have hcs : ∀ c' ∈ [c], c'.IsNameless := List.forall_mem_singleton.mpr hc
  have hone : ∀ u : CType, chain [c] u = c.text ++ u := fun u => chain_cons c [] u
  have hexpand : ∀ n, (g.withBudget n).expand? (c.text ++ t) =
      ((g.withBudget n).expand? t).map (Option.map (c.text ++ ·)) := by
    intro n
    have h := expand?_chain (g := g.withBudget n) hcs ht
    simpa only [funext hone, hone] using h
  have hresolve : ∀ n, (g.withBudget n).resolve (c.text ++ t) =
      ((g.withBudget n).resolve t).map (c.text ++ ·) := by
    intro n
    have h := resolve_chain (g := g.withBudget n) hg hcs ht
    simpa only [funext hone, hone] using h
  refine ⟨hexpand g.budget, hresolve g.budget, fun r => ?_, fun u => ?_⟩
  · rw [expansion_iff_expand? (by simp)]
    constructor
    · rintro ⟨n, hn⟩
      rw [hexpand] at hn
      obtain ⟨r', hr', rfl⟩ := map_eq_ok hn
      exact ⟨r', (expansion_iff_expand? (by simp)).mpr ⟨n, hr'⟩, rfl⟩
    · rintro ⟨r', hr', rfl⟩
      obtain ⟨n, hn⟩ := (expansion_iff_expand? (by simp)).mp hr'
      refine ⟨n, ?_⟩
      rw [hexpand, hn]
      rfl
  · rw [resolves_iff_resolve (by simp)]
    constructor
    · rintro ⟨n, hn⟩
      rw [hresolve] at hn
      obtain ⟨v, hv, rfl⟩ := map_eq_ok hn
      exact ⟨v, (resolves_iff_resolve (by simp)).mpr ⟨n, hv⟩, rfl⟩
    · rintro ⟨v, hv, rfl⟩
      obtain ⟨n, hn⟩ := (resolves_iff_resolve (by simp)).mp hv
      refine ⟨n, ?_⟩
      rw [hresolve, hn]
      rfl

/-- A function over typedefs, behind an array and behind a qualifier. -/
theorem outer_array_of_functions : ∃ g : ScopeGraph, g.TargetsNonempty ∧
    g.expand? "a(10).T".toList = .ok (some "a(10).f(U).U".toList) ∧
    g.resolve "q(const).T".toList = .ok "q(const).f(p.int).p.int".toList ∧
    g.Resolves "a(10).T".toList (.ok "a(10).f(p.int).p.int".toList) := by
  let g := ((new 9).insertTypedef globalScope "T".toList ⟨"f(U).U".toList, false⟩).insertTypedef
    globalScope "U".toList ⟨"p.int".toList, false⟩
  have hg : g.TargetsNonempty := by
    have hone : ((new 9).insertTypedef globalScope "T".toList ⟨"f(U).U".toList, false⟩).Readable :=
      (readable_new 9).insertTypedef (by decide) (by decide)
    have hreadable : g.Readable := hone.insertTypedef (by decide) (by decide)
    exact fun id name entry h => ((hreadable id).types name entry h).2
  have hten : (Constructor.array "10".toList).IsNameless :=
    (IsIdentifier.isWord (by decide)).unbracketed
  have hconst : (Constructor.qualifier "const".toList).IsNameless :=
    (IsIdentifier.isWord (by decide)).unbracketed
  have hresolve : g.resolve "T".toList = .ok "f(p.int).p.int".toList := by decide +kernel
  have hresolves : g.Resolves "T".toList (.ok "f(p.int).p.int".toList) :=
    (resolves_iff_resolve (by simp)).mpr ⟨9, hresolve⟩
  obtain ⟨hexpand, -, -, hall⟩ := outer_constructor_stays (t := "T".toList) hg hten (by decide)
  obtain ⟨-, hqualified, -, -⟩ := outer_constructor_stays (t := "T".toList) hg hconst (by decide)
  refine ⟨g, hg, Eq.trans hexpand ?_, Eq.trans hqualified ?_, (hall _).mpr ⟨_, hresolves, rfl⟩⟩
  · decide +kernel
  · rw [hresolve]
    rfl

end BindingTypes.ScopeGraph
