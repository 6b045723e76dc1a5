import BindingTypes.Proofs.CType.RenamedElement
import BindingTypes.Proofs.Scope.Idempotence

namespace BindingTypes

namespace CType

variable {t u : CType} {es fs gs : List Text} {b c : Text}

theorem wraps_elements (hes : ∀ e ∈ es, Dotted e) (hu : Composed u gs c) (ht : Composed t fs b) :
    CType.wraps (es.flatten ++ u) (es.flatten ++ t) = CType.wraps u t := by
  rw [wraps_of_outline (hu.behind hes).outline (ht.behind hes).outline,
    wraps_of_outline hu.outline ht.outline]
  simp only [Outline.wraps, List.length_append, Nat.add_assoc, Nat.add_lt_add_iff_left]

end CType

namespace ScopeGraph

open CType Relation

variable {g : ScopeGraph} {resolve : CType → Except Fault CType} {t u w d b : CType}
  {es fs ts : List Text} {l : List CType} {r : Option CType}

/-- Where the base does not expand, a function or member pointer in front of it may. -/
theorem expandType_spent_base (hfs : ∀ f ∈ fs, Dotted f) (hb : elements b = .ok [b])
    (h : g.expandType resolve b = .ok none) :
    g.expandType resolve (fs.flatten ++ b) =
      if Text.has fs.flatten "f(".toList || Text.has fs.flatten "m(".toList then
        (g.expandType resolve fs.flatten).map fun x => x.map (· ++ b)
      else .ok none := by
  rw [expandType_front hfs hb, h]
  rfl

/-- An element in front of a type is looked at only where the type does not expand. -/
theorem expandType_element (hd : Dotted d) (ht : Composed t fs b)
    (h : g.expandType resolve (d ++ t) = .ok r) :
    g.expandType resolve t = .ok none ∨
      ∃ u, g.expandType resolve t = .ok (some u) ∧ r = some (d ++ u) := by
  induction hn : t.length using Nat.strongRecOn generalizing t fs b r with
  | ind n ih =>
    have hall : ∀ f ∈ d :: fs, Dotted f := List.forall_mem_cons.mpr ⟨hd, ht.dotted⟩
    have hwhole : d ++ t = (d :: fs).flatten ++ b := by rw [ht.eq]; simp
    rw [hwhole] at h
    rw [ht.eq]
    rcases expandType_cases hall ht.single h with ⟨e, he, rfl⟩ | ⟨hb, -⟩
    · exact Or.inr ⟨_, expandType_of_base ht.dotted ht.single he, by simp⟩
    rw [expandType_spent_base hall ht.single hb] at h
    rw [expandType_spent_base ht.dotted ht.single hb]
    split
    · rename_i hhas
      have hmore : (Text.has (d :: fs).flatten "f(".toList ||
          Text.has (d :: fs).flatten "m(".toList) = true := by
        rw [List.flatten_cons]
        refine Bool.or_eq_true_iff.mpr ((Bool.or_eq_true_iff.mp hhas).imp ?_ ?_) <;>
        · intro hin
          exact Text.has_iff.mpr ((Text.has_iff.mp hin).trans (List.suffix_append _ _).isInfix)
      rw [if_pos hmore] at h
      obtain ⟨y, hy, rfl⟩ := map_eq_ok h
      -- what stands in front is a type of its own, with its last element as the base
      rcases List.eq_nil_or_concat fs with rfl | ⟨init, f, rfl⟩
      · cases hhas
      rw [List.concat_eq_append] at hy ⊢
      have hfront : Composed (init ++ [f]).flatten init f := by
        have hf : Dotted f := ht.dotted f (by simp)
        exact ⟨by simp, fun f' hf' => ht.dotted f' (by simp [hf']), hf.single, hf.ne_nil⟩
      have hlt : (init ++ [f]).flatten.length < t.length := by
        have hb := List.length_pos_iff.mpr ht.ne_nil
        rw [ht.eq, List.concat_eq_append, List.length_append]
        omega
      rcases ih _ (hn ▸ hlt) hfront (by simpa using hy) rfl with hnone | ⟨u, hu, rfl⟩
      · exact Or.inl (by rw [hnone]; rfl)
      · exact Or.inr ⟨u ++ b, by rw [hu]; rfl, by simp⟩
    · exact Or.inl rfl

namespace Expansion

theorem behind_element (hd : Dotted d) (ht : Composed t fs b) (h : g.Expansion (d ++ t) (.ok r)) :
    g.Expansion t (.ok none) ∨ ∃ u, g.Becomes t u ∧ r = some (d ++ u) := by
  obtain ⟨n, hn⟩ := h.expandType (by simp)
  rcases expandType_element hd ht (hn n n (Nat.le_refl n) (Nat.le_refl n)) with hnone | ⟨u, hu, hr⟩
  · exact Or.inl (expansion_of_expandType hnone (by simp))
  · exact Or.inr ⟨u, expansion_of_expandType hu (by simp), hr⟩

/-- Behind its first elements a type takes the same step, or none. -/
theorem behind (hes : ∀ e ∈ es, Dotted e) (ht : Composed t fs b)
    (h : g.Expansion (es.flatten ++ t) (.ok r)) :
    g.Expansion t (.ok none) ∨ ∃ u, g.Becomes t u ∧ r = some (es.flatten ++ u) := by
  induction es generalizing r with
  | nil =>
    cases r with
    | none => exact Or.inl h
    | some u => exact Or.inr ⟨u, h, rfl⟩
  | cons e es ih =>
    obtain ⟨he, hes⟩ := List.forall_mem_cons.mp hes
    have hwhole : (e :: es).flatten ++ t = e ++ (es.flatten ++ t) := by simp
    rw [hwhole] at h
    rcases behind_element he (ht.behind hes) h with hnone | ⟨v, hv, rfl⟩
    · rcases ih hes hnone with hspent | ⟨u, -, hr⟩
      · exact Or.inl hspent
      · cases hr
    · rcases ih hes hv with hspent | ⟨u, hu, hr⟩
      · exact Or.inl hspent
      · cases hr
        exact Or.inr ⟨u, hu, by simp⟩

theorem spent_behind (hes : ∀ e ∈ es, Dotted e) (ht : Composed t fs b)
    (h : g.Expansion (es.flatten ++ t) (.ok none)) : g.Expansion t (.ok none) := by
  rcases h.behind hes ht with hspent | ⟨u, -, hr⟩
  · exact hspent
  · cases hr

end Expansion

/-- The type resolves, to itself or to a type that no typedef expands. -/
def Rests (g : ScopeGraph) (t : CType) : Prop :=
  ∃ w, g.Resolves t (.ok w) ∧ (w = t ∨ g.Expansion w (.ok none))

variable (hg : g.Readable)
include hg

/-- No table has an entry for the empty type. -/
theorem Readable.expansion_nil : g.Expansion [] (.ok none) := by
  have hentry : ∀ id, (g.scope id).typedefs.get? [] = none := by
    intro id
    cases hget : (g.scope id).typedefs.get? [] with
    | none => rfl
    | some e => exact absurd rfl ((hg id).labels [] e hget).1.2
  have hlookup : g.lookup g.current [] = none := by
    cases hfound : g.lookup g.current [] with
    | none => rfl
    | some hit => exact absurd (get?_of_lookup hfound) (by rw [hentry]; simp)
  have hsplit : split [] = .ok ([], []) := by
    rw [split, elements_nil]
    rfl
  refine expansion_of_expandType (k := g.budget) (m := 0) ?_ (by simp)
  show g.expandType _ [] = _
  rw [expandType_of_split hsplit, expandBase_simple rfl rfl,
    expandName_unknown (lookupName_unknown (hentry _) hlookup rfl) rfl]
  rfl

theorem Readable.composed_of_trail (hl : g.Trail l) (hlast : l.getLast? = some t)
    (ht : Composed t fs b) : ∀ s ∈ l, ∃ gs c, Composed s gs c := by
  intro s hs
  rcases (hl.reached hlast hs).cases_tail with rfl | ⟨z, -, hz⟩
  · exact ⟨fs, b, ht⟩
  · exact hg.composed_of_becomes hz

/-- A trail of types with the same elements in front is a trail behind them, unless the type there
comes to its end. -/
theorem Trail.behind (hes : ∀ e ∈ es, Dotted e) (ht : Composed t fs b) (hl : g.Trail l)
    (hlast : l.getLast? = some (es.flatten ++ t)) :
    (∃ w, g.Resolves t (.ok w) ∧ g.Expansion w (.ok none)) ∨
      ∃ l', l = l'.map (es.flatten ++ ·) ∧ g.Trail l' ∧ l'.getLast? = some t := by
  induction l with
  | nil => cases hlast
  | cons x l ih =>
    cases l with
    | nil =>
      cases hlast
      exact Or.inr ⟨[t], rfl, Trail.single g t, rfl⟩
    | cons y l =>
      have htail : g.Trail (y :: l) := hl.right (l := [x])
      rw [List.getLast?_cons_cons] at hlast
      rcases ih htail hlast with hspent | ⟨l', hmap, hl', hlast'⟩
      · exact Or.inl hspent
      · cases l' with
        | nil => cases hlast'
        | cons s l' =>
          obtain ⟨rfl, hrest⟩ := List.cons.inj hmap
          have hcomposed := hg.composed_of_trail hl' hlast' ht
          obtain ⟨gs, c, hs⟩ := hcomposed s List.mem_cons_self
          have hstep : g.Becomes (es.flatten ++ s) x := (List.isChain_cons_cons.mp hl.steps).1
          rcases Expansion.behind hes hs hstep with hspent | ⟨u, hu, hx⟩
          · exact Or.inl ⟨s, resolves_iff_trail.mpr ⟨s :: l', hl', hlast', .spent hspent⟩, hspent⟩
          · cases hx
            obtain ⟨gs', c', hu'⟩ := hg.composed_of_becomes hu
            have hfresh := (List.pairwise_cons.mp hl.fresh).1
            rw [hmap] at hfresh
            refine Or.inr ⟨u :: s :: l', by rw [hmap]; rfl, hl'.cons hu (fun s' hs' => ?_)
              fun hmem => ?_, by rwa [List.getLast?_cons_cons]⟩
            · obtain ⟨gs'', c'', hs''⟩ := hcomposed s' hs'
              rw [← wraps_elements hes hu' hs'']
              exact (hfresh _ (List.mem_map_of_mem hs')).1
            · exact (hfresh _ (List.mem_map_of_mem hmem)).2 rfl

/-- Behind the elements a trail stops for the same reason, unless the type there comes to its
end. -/
theorem Stops.behind (hes : ∀ e ∈ es, Dotted e)
    (hcomposed : ∀ s ∈ u :: ts, ∃ fs b, Composed s fs b)
    (h : g.Stops ((u :: ts).map (es.flatten ++ ·)) (es.flatten ++ t)) :
    g.Expansion u (.ok none) ∨ g.Stops (u :: ts) t := by
  obtain ⟨fs, b, hu⟩ := hcomposed u List.mem_cons_self
  generalize hl : (u :: ts).map (es.flatten ++ ·) = l at h
  generalize hwhole : es.flatten ++ t = whole at h
  cases h with
  | spent hnone =>
    obtain ⟨rfl, -⟩ := List.cons.inj hl
    exact Or.inl (hnone.spent_behind hes hu)
  | wrapped hstep hs hw =>
    obtain ⟨rfl, -⟩ := List.cons.inj hl
    cases List.append_cancel_left hwhole
    rcases hstep.behind hes hu with hspent | ⟨v, hv, hnext⟩
    · exact Or.inl hspent
    · cases hnext
      rw [← hl] at hs
      obtain ⟨s, hmem, rfl⟩ := List.mem_map.mp hs
      obtain ⟨fs', b', hs'⟩ := hcomposed s hmem
      obtain ⟨gs, c, hv'⟩ := hg.composed_of_becomes hv
      rw [wraps_elements hes hv' hs'] at hw
      exact Or.inr (.wrapped hv hmem hw)
  | repeated hstep hs hw =>
    obtain ⟨rfl, -⟩ := List.cons.inj hl
    rw [← hwhole] at hstep hs hw
    rw [← hl] at hs hw
    rcases hstep.behind hes hu with hspent | ⟨v, hv, hnext⟩
    · exact Or.inl hspent
    · cases List.append_cancel_left (Option.some.inj hnext)
      obtain ⟨s, hmem, hs⟩ := List.mem_map.mp hs
      cases List.append_cancel_left hs
      obtain ⟨gs, c, hv'⟩ := hg.composed_of_becomes hv
      refine Or.inr (.repeated hv hmem fun s hs => ?_)
      obtain ⟨fs', b', hs'⟩ := hcomposed s hs
      rw [← wraps_elements hes hv' hs']
      exact hw _ (List.mem_map_of_mem hs)

/-- What stands behind elements of a type that resolution leaves as it is. -/
theorem rests_behind (hes : ∀ e ∈ es, Dotted e) (ht : Composed t fs b)
    (h : g.Resolves (es.flatten ++ t) (.ok (es.flatten ++ t))) : g.Rests t := by
  obtain ⟨l, hl, hlast, hstops⟩ := resolves_iff_trail.mp h
  rcases Trail.behind hg hes ht hl hlast with ⟨w, hw, hspent⟩ | ⟨l', rfl, hl', hlast'⟩
  · exact ⟨w, hw, Or.inr hspent⟩
  cases l' with
  | nil => cases hlast'
  | cons u ts =>
    rcases Stops.behind hg hes (hg.composed_of_trail hl' hlast' ht) hstops with hspent | hstops'
    · exact ⟨u, resolves_iff_trail.mpr ⟨u :: ts, hl', hlast', .spent hspent⟩, Or.inr hspent⟩
    · exact ⟨t, resolves_iff_trail.mpr ⟨u :: ts, hl', hlast', hstops'⟩, Or.inl rfl⟩

end ScopeGraph

end BindingTypes
