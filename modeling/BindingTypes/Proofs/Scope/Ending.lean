import BindingTypes.Proofs.Scope.Fronts
import BindingTypes.Proofs.Scope.Twin
import BindingTypes.Proofs.Scope.Readable
import Mathlib.Data.Set.Finite.Lattice

namespace BindingTypes

namespace ScopeGraph

open CType Relation

/-- The bases that the expansion of `t` comes to. -/
def basesFrom (g : ScopeGraph) (t : CType) : Set Text :=
  { b | ∃ v, ReflTransGen g.Becomes t v ∧ CType.base v = .ok b }

/-- The types that the expansion of `t` comes to over a base that does not expand. -/
def spentFrom (g : ScopeGraph) (t : CType) : Set CType :=
  { v | ReflTransGen g.Becomes t v ∧ ∃ b, CType.base v = .ok b ∧ g.Expansion b (.ok none) }

variable {g : ScopeGraph} {t t' u v w b b' e : CType} {fs fs' : List Text} {l ts : List CType}

open Classical in
/-- What a type of a trail counts as. A base that does not expand is there for good, so over it the
whole type counts, and otherwise the base. -/
noncomputable def mark (g : ScopeGraph) (t v : CType) : Text ⊕ CType :=
  if v ∈ g.spentFrom t then .inr v else .inl ((CType.base v).toOption.getD [])

theorem mark_of_spent (h : v ∈ g.spentFrom t) : g.mark t v = .inr v := if_pos h

theorem mark_of_base (hv : Composed v fs b) (h : v ∉ g.spentFrom t) : g.mark t v = .inl b := by
  have hmark : g.mark t v = .inl ((CType.base v).toOption.getD []) := if_neg h
  rw [hmark, hv.base]
  rfl

theorem Stops.answered (h : g.Stops (t :: ts) u) : ∃ r, g.Expansion t (.ok r) := by
  cases h with
  | spent h => exact ⟨_, h⟩
  | wrapped h _ _ => exact ⟨_, h⟩
  | repeated h _ _ => exact ⟨_, h⟩

theorem Trail.answered (hl : g.Trail (t :: ts)) (ht : ∃ r, g.Expansion t (.ok r))
    (hv : v ∈ t :: ts) : ∃ r, g.Expansion v (.ok r) := by
  obtain ⟨a, c, hsplit⟩ := List.append_of_mem hv
  rcases List.eq_nil_or_concat a with rfl | ⟨a, z, rfl⟩
  · obtain ⟨rfl, -⟩ := List.cons.inj hsplit
    exact ht
  · have hchain := hl.steps
    rw [hsplit, List.concat_eq_append, List.append_assoc] at hchain
    exact ⟨some z, (List.isChain_cons_cons.mp hchain.right_of_append).1⟩

/-- The step that a trail does not take leads back to one of its bases. -/
theorem Stops.base_mem (h : g.Stops (t :: ts) u) (hnext : g.Becomes t v) (hv : Composed v fs b) :
    ∃ s ∈ t :: ts, ∃ fs', Composed s fs' b := by
  cases h with
  | spent h => exact absurd h hnext.not_spent
  | @wrapped _ _ s _ hstep hs hw =>
    rw [hstep.unique hnext] at hw
    obtain ⟨k, -, fs₁, fs₂, c, h₁, h₂, -⟩ := twin_of_wraps hw
    obtain ⟨-, rfl⟩ := h₂.unique hv
    exact ⟨s, hs, fs₁, h₁⟩
  | repeated hstep hs _ =>
    rw [hstep.unique hnext] at hs
    exact ⟨v, hs, fs, hv⟩

/-- The answer for a type answers for its base. -/
theorem expansion_base {r : Option CType} (hv : Composed v fs b) (h : g.Expansion v (.ok r)) :
    ∃ r', g.Expansion b (.ok r') := by
  obtain ⟨n, hn⟩ := Expansion.expandType h (by simp)
  have hn := hn n n (Nat.le_refl n) (Nat.le_refl n)
  rw [hv.eq] at hn
  rcases expandType_cases hv.dotted hv.single hn with ⟨e, he, -⟩ | ⟨hb, -⟩
  · exact ⟨some e, expansion_of_expandType he (by simp)⟩
  · exact ⟨none, expansion_of_expandType hb (by simp)⟩

namespace Readable

variable (hg : g.Readable)
include hg

theorem composed_of_reached (ht : IsWritten t) (h : ReflTransGen g.Becomes t v) :
    ∃ fs b, Composed v fs b := by
  rcases h.cases_tail with rfl | ⟨u, -, hu⟩
  · exact composed_of_balanced ht.1 ht.2
  · exact hg.composed_of_becomes hu

/-- The front of a type stays in front as long as bases expand. -/
theorem front_kept (ht : Composed t fs b) (h : ReflTransGen g.Becomes t v) (hv : Composed v fs' b')
    (hspent : ¬ g.Expansion b' (.ok none)) : ∃ gs, fs' = fs ++ gs := by
  induction h generalizing fs' b' with
  | refl =>
    obtain ⟨rfl, -⟩ := hv.unique ht
    exact ⟨[], (List.append_nil _).symm⟩
  | @tail u v hu hstep ih =>
    obtain ⟨gs, c, hc⟩ := hg.composed_of_reached ⟨ht.balanced, ht.whole_ne_nil⟩ hu
    have hcspent : ¬ g.Expansion c (.ok none) := by
      intro hspent'
      obtain ⟨fs'', hv'', -⟩ := hg.composed_of_spent hc hspent' (.single hstep)
      obtain ⟨-, rfl⟩ := hv.unique hv''
      exact hspent hspent'
    obtain ⟨hs, rfl⟩ := ih hc hcspent
    rcases hg.becomes_cases hc hstep with ⟨e, he, rfl⟩ | ⟨hspent', -⟩
    · obtain ⟨ks, d, hd⟩ := hg.composed_of_becomes he
      obtain ⟨rfl, -⟩ := hv.unique (hc.under hd)
      exact ⟨hs ++ ks, List.append_assoc _ _ _⟩
    · exact absurd hspent' hcspent

/-- A base that expands does not come back on a trail. -/
theorem base_fresh (ht : Composed t fs b) (hv : Composed v fs' b)
    (h : ReflTransGen g.Becomes t v) (hspent : ¬ g.Expansion b (.ok none))
    (hw : CType.wraps v t = .ok false) : v = t := by
  obtain ⟨gs, rfl⟩ := hg.front_kept ht h hv hspent
  cases gs with
  | nil => rw [hv.eq, ht.eq, List.append_nil]
  | cons f gs =>
    have hlonger : CType.wraps v t = .ok true := (hv.wraps_iff ht).mpr ⟨by simp, rfl⟩
    rw [hlonger] at hw
    cases hw

/-- Behind a trail that stops no new base comes up. -/
theorem base_of_stops (ht : IsWritten t) (hl : g.Trail (t' :: ts))
    (hlast : (t' :: ts).getLast? = some t) (hu : g.Stops (t' :: ts) u)
    (h : ReflTransGen g.Becomes t v) :
    ∃ s ∈ t' :: ts, ∃ fs fs' b, Composed s fs b ∧ Composed v fs' b := by
  induction h with
  | refl =>
    obtain ⟨fs, b, hc⟩ := composed_of_balanced ht.1 ht.2
    exact ⟨t, List.mem_of_getLast? hlast, fs, fs, b, hc, hc⟩
  | @tail v w _ hstep ih =>
    obtain ⟨s, hs, fs, fs', b, hcs, hcv⟩ := ih
    rcases hg.becomes_cases hcv hstep with ⟨e, he, rfl⟩ | ⟨-, fs'', hw, -⟩
    · obtain ⟨gs, c, hc⟩ := hg.composed_of_becomes he
      have hnext : g.Becomes s (fs.flatten ++ e) := becomes_of_base hcs he
      rcases hl.mem_next hs hnext with hmem | rfl
      · exact ⟨_, hmem, fs ++ gs, fs' ++ gs, c, hcs.under hc, hcv.under hc⟩
      · obtain ⟨s', hs', fs₁, h₁⟩ := hu.base_mem hnext (hcs.under hc)
        exact ⟨s', hs', fs₁, fs' ++ gs, c, h₁, hcv.under hc⟩
    · exact ⟨s, hs, fs, fs'', b, hcs, hw⟩

/-- What comes after a trail that stops is in the trail, or every base expands from some type on. -/
theorem mem_or_not_spent (hl : g.Trail (t' :: ts)) (hlast : (t' :: ts).getLast? = some t)
    (hu : g.Stops (t' :: ts) u) (h : ReflTransGen g.Becomes t v) (hv : Composed v fs b) :
    v ∈ t' :: ts ∨ ¬ g.Expansion b (.ok none) := by
  have ht : t ∈ t' :: ts := List.mem_of_getLast? hlast
  cases hu with
  | spent hspent =>
    have hclosed : ∀ w, g.Becomes t' w → w ∈ t' :: ts := fun w hw => absurd hspent hw.not_spent
    exact Or.inl (hl.mem_of_closed hclosed ht h)
  | @wrapped _ next s _ hstep hs hw =>
    rcases hl.mem_or_behind ht h with hmem | ⟨w, hw', hwv⟩
    · exact Or.inl hmem
    · obtain ⟨k, hk, htwin⟩ := twin_of_wraps hw
      have hback : ReflTransGen g.Becomes s next := (hl.reaches_head hs).tail hstep
      rw [hw'.unique hstep] at hwv
      exact Or.inr (hg.not_spent_of_twin htwin hk hback (hback.trans hwv) hv)
  | repeated hstep hs _ =>
    have hclosed : ∀ w, g.Becomes t' w → w ∈ t' :: ts := fun w hw => hw.unique hstep ▸ hs
    exact Or.inl (hl.mem_of_closed hclosed ht h)

/-- Where the trail from a type stops, every type that comes after has an answer. -/
theorem answered_of_stops (ht : IsWritten t) (hl : g.Trail (t' :: ts))
    (hlast : (t' :: ts).getLast? = some t) (hu : g.Stops (t' :: ts) u)
    (h : ReflTransGen g.Becomes t v) : ∃ r, g.Expansion v (.ok r) := by
  obtain ⟨s, hs, fs, fs', b, hcs, hcv⟩ := hg.base_of_stops ht hl hlast hu h
  rcases hg.mem_or_not_spent hl hlast hu h hcv with hmem | hspent
  · exact hl.answered hu.answered hmem
  · obtain ⟨r, hr⟩ := hl.answered hu.answered hs
    obtain ⟨r', hr'⟩ := expansion_base hcs hr
    cases r' with
    | none => exact absurd hr' hspent
    | some e => exact ⟨_, becomes_of_base hcv hr'⟩

/-- A trail from a type whose expansions have answers goes on for ever, or it stops. -/
theorem stops_or_any_length (ht : IsWritten t)
    (hall : ∀ v, ReflTransGen g.Becomes t v → ∃ r, g.Expansion v (.ok r)) (n : Nat) :
    (∃ l u, g.Trail l ∧ l.getLast? = some t ∧ g.Stops l u) ∨
      ∃ t' ts, g.Trail (t' :: ts) ∧ (t' :: ts).getLast? = some t ∧ ts.length = n := by
  induction n with
  | zero => exact Or.inr ⟨t, [], Trail.single g t, rfl, rfl⟩
  | succ n ih =>
    rcases ih with hstops | ⟨t', ts, hl, hlast, hlength⟩
    · exact Or.inl hstops
    · have hreached : ReflTransGen g.Becomes t t' := hl.reached hlast List.mem_cons_self
      obtain ⟨r, hr⟩ := hall t' hreached
      cases r with
      | none => exact Or.inl ⟨t' :: ts, t', hl, hlast, .spent hr⟩
      | some next =>
        obtain ⟨fs, b, hc⟩ := hg.composed_of_reached ht hreached
        obtain ⟨fs', b', hc'⟩ := hg.composed_of_becomes hr
        rcases hl.stops_or_cons hr ⟨_, hc.outline⟩ ⟨_, hc'.outline⟩ with ⟨u, hu⟩ | hl'
        · exact Or.inl ⟨t' :: ts, u, hl, hlast, hu⟩
        · refine Or.inr ⟨next, t' :: ts, hl', ?_, by simp [hlength]⟩
          rwa [List.getLast?_cons_cons]

/-- No two types of a trail have one mark. -/
theorem mark_fresh (ht : IsWritten t) (hl : g.Trail l) (hlast : l.getLast? = some t) :
    l.Pairwise fun newer older => g.mark t newer ≠ g.mark t older := by
  refine (hl.fresh.and hl.ordered).imp_of_mem ?_
  rintro newer older hnewer holder ⟨⟨hw, hne⟩, hpath⟩ hsame
  have hreached : ReflTransGen g.Becomes t newer := hl.reached hlast hnewer
  have hreached' : ReflTransGen g.Becomes t older := hl.reached hlast holder
  obtain ⟨fs, b, hc⟩ := hg.composed_of_reached ht hreached
  obtain ⟨fs', b', hc'⟩ := hg.composed_of_reached ht hreached'
  by_cases hnew : newer ∈ g.spentFrom t
  · rw [mark_of_spent hnew] at hsame
    by_cases hold : older ∈ g.spentFrom t
    · rw [mark_of_spent hold] at hsame
      exact hne (Sum.inr.inj hsame)
    · rw [mark_of_base hc' hold] at hsame
      cases hsame
  · rw [mark_of_base hc hnew] at hsame
    by_cases hold : older ∈ g.spentFrom t
    · rw [mark_of_spent hold] at hsame
      cases hsame
    · rw [mark_of_base hc' hold] at hsame
      cases Sum.inl.inj hsame
      have hexpands : ¬ g.Expansion b (.ok none) := fun h => hnew ⟨hreached, b, hc.base, h⟩
      exact hne (hg.base_fresh hc' hc hpath hexpands hw)

/-- A trail is no longer than there are bases and types over bases that do not expand. -/
theorem length_le_of_finite (ht : IsWritten t) (hl : g.Trail l) (hlast : l.getLast? = some t)
    (hbases : (g.basesFrom t).Finite) (hspent : (g.spentFrom t).Finite) :
    l.length ≤ hbases.toFinset.card + hspent.toFinset.card := by
  have hmem : ∀ k ∈ l.map (g.mark t), k ∈ hbases.toFinset.disjSum hspent.toFinset := by
    intro k hk
    obtain ⟨v, hv, rfl⟩ := List.mem_map.mp hk
    have hreached : ReflTransGen g.Becomes t v := hl.reached hlast hv
    by_cases hv' : v ∈ g.spentFrom t
    · rw [mark_of_spent hv']
      exact Finset.inr_mem_disjSum.mpr (hspent.mem_toFinset.mpr hv')
    · obtain ⟨fs, b, hc⟩ := hg.composed_of_reached ht hreached
      rw [mark_of_base hc hv']
      exact Finset.inl_mem_disjSum.mpr (hbases.mem_toFinset.mpr ⟨v, hreached, hc.base⟩)
  have hnodup : (l.map (g.mark t)).Nodup := List.pairwise_map.mpr (hg.mark_fresh ht hl hlast)
  calc l.length = (l.map (g.mark t)).length := (List.length_map _).symm
    _ = (l.map (g.mark t)).toFinset.card := (List.toFinset_card_of_nodup hnodup).symm
    _ ≤ (hbases.toFinset.disjSum hspent.toFinset).card :=
      Finset.card_le_card fun k hk => hmem k (List.mem_toFinset.mp hk)
    _ = hbases.toFinset.card + hspent.toFinset.card := Finset.card_disjSum _ _

/-- The expansion of a type ends just where every type on the way has an answer, finitely many bases
come up, and finitely many types over bases that do not expand. -/
theorem ends_iff (ht : IsWritten t) :
    (∃ u, g.Resolves t (.ok u)) ↔
      (∀ v, ReflTransGen g.Becomes t v → ∃ r, g.Expansion v (.ok r)) ∧
        (g.basesFrom t).Finite ∧ (g.spentFrom t).Finite := by
  constructor
  · rintro ⟨u, h⟩
    obtain ⟨l, hl, hlast, hu⟩ := resolves_iff_trail.mp h
    cases l with
    | nil => cases hlast
    | cons t' ts =>
      refine ⟨fun v hv => hg.answered_of_stops ht hl hlast hu hv, ?_, ?_⟩
      · refine ((List.finite_toSet (t' :: ts)).image fun s =>
          (CType.base s).toOption.getD []).subset fun b hb => ?_
        obtain ⟨v, hreached, hv⟩ := hb
        obtain ⟨s, hs, fs, fs', c, hcs, hcv⟩ := hg.base_of_stops ht hl hlast hu hreached
        cases hcv.base.symm.trans hv
        refine ⟨s, hs, ?_⟩
        show (CType.base s).toOption.getD [] = b
        rw [hcs.base]
        rfl
      · refine (List.finite_toSet (t' :: ts)).subset fun v hv => ?_
        obtain ⟨hreached, b, hb, hspent⟩ := hv
        obtain ⟨fs, c, hc⟩ := hg.composed_of_reached ht hreached
        cases hc.base.symm.trans hb
        exact (hg.mem_or_not_spent hl hlast hu hreached hc).resolve_right (not_not_intro hspent)
  · rintro ⟨hall, hbases, hspent⟩
    rcases hg.stops_or_any_length ht hall (hbases.toFinset.card + hspent.toFinset.card) with
      ⟨l, u, hl, hlast, hu⟩ | ⟨t', ts, hl, hlast, hlength⟩
    · exact ⟨u, resolves_iff_trail.mpr ⟨l, hl, hlast, hu⟩⟩
    · have hle := hg.length_le_of_finite ht hl hlast hbases hspent
      rw [List.length_cons] at hle
      omega

end Readable

end ScopeGraph

open CType ScopeGraph Relation

/-- Where names and types are written as they are in declarations, resolving a type ends just where
every type on the way can be expanded, finitely many bases come up, and finitely many types over
bases that do not expand. -/
theorem resolving_ends_iff {budget : Nat} {ops : List Operation} {t : CType}
    (hops : ∀ op ∈ ops, op.Readable) (ht : IsWritten t) :
    (∃ u, (Consulted.run budget ops).env.graph.Resolves t (.ok u)) ↔
      (∀ v, ReflTransGen (Consulted.run budget ops).env.graph.Becomes t v →
        ∃ r, (Consulted.run budget ops).env.graph.Expansion v (.ok r)) ∧
      ((Consulted.run budget ops).env.graph.basesFrom t).Finite ∧
      ((Consulted.run budget ops).env.graph.spentFrom t).Finite :=
  (Consulted.readable_run budget hops).ends_iff ht

/-- `A` is a pointer to `A`. -/
def pointerToItself : List Operation := [.scopes (.define "p.A".toList "A".toList)]

/-- The base of a pointer to itself is the same for ever. -/
theorem pointer_to_itself_ends :
    ((Consulted.run 8 pointerToItself).env.graph.basesFrom "A".toList).Finite := by
  have hreadable : ∀ op ∈ pointerToItself, op.Readable := by
    intro op hop
    cases List.mem_singleton.mp hop
    exact ⟨by decide, by decide⟩
  have hresolves : (Consulted.run 8 pointerToItself).env.graph.Resolves "A".toList
      (.ok "A".toList) :=
    resolves_of_resolveTo (n := 8) (by decide +kernel) (by simp)
  exact ((resolving_ends_iff hreadable (by decide)).mp ⟨_, hresolves⟩).2.1

/-- `A` is a pointer to a function of an `A`. -/
def functionOfItself : List Operation := [.scopes (.define "p.f(A).int".toList "A".toList)]

/-- What the expansion of a function of itself comes to. -/
def nestedFunction : Nat → CType
  | 0 => "A".toList
  | n + 1 => "p.".toList ++ written 'f' (nestedFunction n) ++ "int".toList

theorem composed_nestedFunction (n : Nat) (h : Balanced (nestedFunction n)) :
    Composed (nestedFunction (n + 1)) ["p.".toList, written 'f' (nestedFunction n)]
      "int".toList where
  eq := by simp [nestedFunction]
  dotted f hf := by
    rcases List.mem_cons.mp hf with rfl | hf
    · exact ⟨['p'], rfl, rfl⟩
    · rw [List.mem_singleton.mp hf]
      exact dotted_written (by decide) h
  single := elements_unbracketed (by simp [Unbracketed]) (by decide)
  ne_nil := by decide

theorem listable_nestedFunction (n : Nat) : Listable (nestedFunction n) := by
  induction n with
  | zero => exact .of_plain (by simp [nestedFunction])
  | succ n ih =>
    have hpointer : Listable "p.".toList := .of_plain (by simp)
    have hint : Listable "int".toList := .of_plain (by simp)
    exact (hpointer.append (.written (by decide) ih.balanced)).append hint

theorem less_notMem_nestedFunction (n : Nat) : '<' ∉ nestedFunction n := by
  induction n with
  | zero => decide
  | succ n ih => simpa [nestedFunction, written] using ih

namespace ScopeGraph

/-- Every function of itself becomes one more function of itself. -/
theorem expandType_nestedFunction {g : ScopeGraph} {resolve : CType → Except Fault CType}
    (hstart : g.expandType resolve "A".toList = .ok (some (nestedFunction 1)))
    (hint : g.expandType resolve "int".toList = .ok none) (n : Nat) :
    g.expandType resolve (nestedFunction n) = .ok (some (nestedFunction (n + 1))) := by
  induction n with
  | zero => exact hstart
  | succ n ih =>
    have hb := (listable_nestedFunction n).balanced
    have hne : nestedFunction n ≠ [] := by
      cases n with
      | zero => decide
      | succ n => simp [nestedFunction]
    have hc := composed_nestedFunction n hb
    have hpointer : Composed (["p.".toList].flatten ++ written 'f' (nestedFunction n))
        ["p.".toList] (written 'f' (nestedFunction n)) :=
      ⟨rfl, fun f hf => hc.dotted f (by simpa using Or.inl (List.mem_singleton.mp hf)),
        (dotted_written (by decide) hb).single, by simp [written]⟩
    have hinside := expandType_function_some [] []
      (List.forall_mem_singleton.mpr (listable_nestedFunction n))
      (List.forall_mem_singleton.mpr hne)
      (List.forall_mem_singleton.mpr (less_notMem_nestedFunction n)) (List.forall_mem_nil _) ih
    simp only [List.nil_append, commaJoin_singleton] at hinside
    have hfront := expandType_of_base hpointer.dotted hpointer.single hinside
    have hflat : ["p.".toList, written 'f' (nestedFunction n)].flatten =
        ["p.".toList].flatten ++ written 'f' (nestedFunction n) := by simp
    have hhas : Text.has (["p.".toList].flatten ++ written 'f' (nestedFunction n)) "f(".toList =
        true := by
      simp [Text.has, Text.cut?, Text.after?, written]
    have hresult : nestedFunction (n + 1 + 1) =
        ["p.".toList].flatten ++ written 'f' (nestedFunction (n + 1)) ++ "int".toList := rfl
    rw [hc.eq, expandType_front hc.dotted hc.single, hint, hflat, hfront, hhas, hresult]
    rfl

end ScopeGraph

theorem becomes_nestedFunction (n : Nat) :
    (Consulted.run 8 functionOfItself).env.graph.Becomes (nestedFunction n)
      (nestedFunction (n + 1)) :=
  expansion_of_expandType (k := 8) (m := 8)
    (expandType_nestedFunction (expandType_declared (by decide) rfl (by decide))
      (expandType_undeclared (by decide) rfl rfl) n) (by simp)

/-- Every step goes on inside the parameter, and none comes back or only wraps. -/
theorem function_of_itself_never_ends :
    (∀ op ∈ functionOfItself, op.Readable) ∧ IsWritten "A".toList ∧
      ∀ u, ¬ (Consulted.run 8 functionOfItself).env.graph.Resolves "A".toList (.ok u) := by
  have hreadable : ∀ op ∈ functionOfItself, op.Readable := by
    intro op hop
    cases List.mem_singleton.mp hop
    exact ⟨by decide, by decide⟩
  have hwritten : IsWritten "A".toList := by decide
  refine ⟨hreadable, hwritten, fun u hu => ?_⟩
  have hfinite := (((Consulted.readable_run 8 hreadable).ends_iff hwritten).mp ⟨u, hu⟩).2.2
  have hint : (Consulted.run 8 functionOfItself).env.graph.Expansion "int".toList (.ok none) :=
    expansion_of_expandType (k := 8) (m := 8) (expandType_undeclared (by decide) rfl rfl) (by simp)
  have hreached : ∀ n, ReflTransGen (Consulted.run 8 functionOfItself).env.graph.Becomes
      "A".toList (nestedFunction n) := by
    intro n
    induction n with
    | zero => exact .refl
    | succ n ih => exact ih.tail (becomes_nestedFunction n)
  have hspent : ∀ n, nestedFunction (n + 1) ∈
      (Consulted.run 8 functionOfItself).env.graph.spentFrom "A".toList := fun n =>
    ⟨hreached (n + 1), "int".toList,
      (composed_nestedFunction n (listable_nestedFunction n).balanced).base, hint⟩
  have hlonger : StrictMono fun n => (nestedFunction (n + 1)).length := by
    refine strictMono_nat_of_lt_succ fun n => ?_
    simp only [nestedFunction, written, List.length_append, List.length_cons]
    omega
  have hinjective : Function.Injective fun n => nestedFunction (n + 1) :=
    fun n m h => hlonger.injective (congrArg List.length h)
  exact Set.infinite_of_injective_forall_mem hinjective hspent hfinite

end BindingTypes
