import BindingTypes.Proofs.Scope.Twin
import BindingTypes.Proofs.Scope.Readable

namespace BindingTypes

namespace ScopeGraph

open CType Relation

/-- On the way from `t` to `u` stands a type that the expansion of `u` only wraps, and that type is
not `u` itself. -/
def CutOff (g : ScopeGraph) (t u : CType) : Prop :=
  ∃ earlier next, ReflTransGen g.Becomes t earlier ∧ ReflTransGen g.Becomes earlier u ∧
    g.Becomes u next ∧ CType.wraps next earlier = .ok true ∧ CType.wraps next u = .ok false

variable {g : ScopeGraph} {t t' u v w : CType} {l ts : List CType} {k : Nat}

theorem resolves_of_wraps (h : g.Becomes u v) (hw : CType.wraps v u = .ok true) :
    g.Resolves u (.ok u) :=
  resolves_iff_trail.mpr ⟨[u], Trail.single g u, rfl, .wrapped h List.mem_cons_self hw⟩

/-- A trail that comes back to a type comes back to it from that type on. -/
theorem resolves_of_repeated (hl : g.Trail (t :: ts)) (h : g.Becomes t u) (hu : u ∈ t :: ts)
    (hw : ∀ s ∈ t :: ts, CType.wraps u s = .ok false) : g.Resolves u (.ok u) := by
  obtain ⟨a, c, hsplit⟩ := List.append_of_mem hu
  have hloop : g.Trail (a ++ [u]) := by
    rw [hsplit, List.append_cons] at hl
    exact hl.left
  have hmem : ∀ s ∈ a ++ [u], s ∈ t :: ts := by
    intro s hs
    rw [hsplit, List.append_cons]
    exact List.mem_append_left c hs
  refine resolves_iff_trail.mpr ⟨a ++ [u], hloop, by simp, ?_⟩
  cases a with
  | nil =>
    obtain ⟨rfl, -⟩ := List.cons.inj hsplit
    exact .repeated h List.mem_cons_self fun s hs => hw s (hmem s hs)
  | cons t₁ a =>
    obtain ⟨rfl, -⟩ := List.cons.inj hsplit
    refine .repeated h ?_ fun s hs => hw s (hmem s hs)
    exact List.mem_append_right (t :: a) List.mem_cons_self

/-- What is not cut off resolves to itself. -/
theorem resolves_again (h : g.Resolves t (.ok u)) (hcut : ¬ g.CutOff t u) :
    g.Resolves u (.ok u) := by
  obtain ⟨l, hl, hlast, hu⟩ := resolves_iff_trail.mp h
  cases hu with
  | spent h => exact resolves_of_spent h
  | @wrapped _ next s ts hstep hs hw =>
    have hearlier : ReflTransGen g.Becomes t s := hl.reached hlast hs
    have hlater : ReflTransGen g.Becomes s u := hl.reaches_head hs
    obtain ⟨o', -, ho', -, -⟩ := outlines_of_wraps hw
    obtain ⟨o, ho⟩ := Trail.outline_of_wraps hl hs hw
    have hself := wraps_of_outline ho' ho
    cases hcase : o'.wraps o with
    | true =>
      rw [hcase] at hself
      exact resolves_of_wraps hstep hself
    | false =>
      rw [hcase] at hself
      exact absurd ⟨s, next, hearlier, hlater, hstep, hw, hself⟩ hcut
  | repeated hstep hs hw => exact resolves_of_repeated hl hstep hs hw

/-- A trail goes on along the way to any later type, unless it stops before. -/
theorem trail_or_stops (hg : g.Readable) (h : ReflTransGen g.Becomes u v)
    (ho : ∃ o, outline u = .ok o) :
    (∃ l w, g.Trail l ∧ l.getLast? = some u ∧ g.Stops l w) ∨
      ∃ ts, g.Trail (v :: ts) ∧ (v :: ts).getLast? = some u := by
  induction h with
  | refl => exact Or.inr ⟨[], Trail.single g u, rfl⟩
  | @tail x y hx hstep ih =>
    rcases ih with hstops | ⟨ts, hl, hlast⟩
    · exact Or.inl hstops
    · have hox : ∃ o, outline x = .ok o := by
        rcases hx.cases_tail with rfl | ⟨z, -, hz⟩
        · exact ho
        · obtain ⟨gs, c, hc⟩ := hg.composed_of_becomes hz
          exact ⟨_, hc.outline⟩
      obtain ⟨gs, c, hc⟩ := hg.composed_of_becomes hstep
      rcases hl.stops_or_cons hstep hox ⟨_, hc.outline⟩ with ⟨w, hw⟩ | hl'
      · exact Or.inl ⟨x :: ts, w, hl, hlast, hw⟩
      · exact Or.inr ⟨x :: ts, hl', by rwa [List.getLast?_cons_cons]⟩

/-- What is cut off resolves to something else. -/
theorem CutOff.resolves_other (hg : g.Readable) (h : g.CutOff t u) :
    ∃ w, w ≠ u ∧ g.Resolves u (.ok w) := by
  obtain ⟨earlier, next, -, hpath, hnext, hw, hself⟩ := h
  obtain ⟨k, hk, htwin⟩ := twin_of_wraps hw
  have hback : ReflTransGen g.Becomes earlier next := hpath.tail hnext
  -- `u` comes again under more elements, so its own run stops there at the latest.
  obtain ⟨u', hu', hutwin⟩ := hg.twin_reached htwin hk hback hpath
  have hagain : CType.wraps u' u = .ok true := hutwin.wraps hk
  obtain ⟨-, o, -, ho, -⟩ := outlines_of_wraps hself
  have hreach : ReflTransGen g.Becomes u u' := .head hnext hu'
  rcases trail_or_stops hg hreach ⟨o, ho⟩ with ⟨l, w, hl, hlast, hstops⟩ | ⟨ts, hl, hlast⟩
  · refine ⟨w, ?_, resolves_iff_trail.mpr ⟨l, hl, hlast, hstops⟩⟩
    rintro rfl
    cases hstops with
    | spent h => exact hnext.not_spent h
    | @wrapped _ next' s ts hstep hs hw' =>
      cases ts with
      | nil =>
        rw [List.mem_singleton.mp hs, hstep.unique hnext, hself] at hw'
        cases hw'
      | cons t' ts =>
        rw [List.getLast?_cons_cons] at hlast
        have hmem := List.mem_of_getLast? hlast
        exact ((List.pairwise_cons.mp hl.fresh).1 w hmem).2 rfl
    | repeated hstep hs hw' =>
      obtain ⟨next', hnext', hnexttwin⟩ := hg.twin_reached htwin hk hback hback
      obtain ⟨v, hv, hnot⟩ := hg.exists_notMem hnexttwin hk hnext' _
      have hclosed : ∀ y, g.Becomes _ y → y ∈ _ := fun y hy => hy.unique hstep ▸ hs
      exact hnot (hl.mem_of_closed hclosed hs (.head hnext hv))
  · cases ts with
    | nil =>
      have hsame : u' = u := Option.some.inj hlast
      rw [hsame, wraps_self ho] at hagain
      cases hagain
    | cons t' ts =>
      rw [List.getLast?_cons_cons] at hlast
      have hmem := List.mem_of_getLast? hlast
      rw [((List.pairwise_cons.mp hl.fresh).1 u hmem).1] at hagain
      cases hagain

end ScopeGraph

/-- A resolved type resolves to itself where its run was not cut off. Where names and types are
written as they are in declarations, a type whose run was cut off resolves to another one. -/
theorem resolves_twice {budget : Nat} {ops : List Operation} {t u : CType}
    (h : (Consulted.run budget ops).env.graph.Resolves t (.ok u)) :
    (¬ (Consulted.run budget ops).env.graph.CutOff t u →
      (Consulted.run budget ops).env.graph.Resolves u (.ok u)) ∧
    ((∀ op ∈ ops, op.Readable) → (Consulted.run budget ops).env.graph.CutOff t u →
      ∃ w, w ≠ u ∧ (Consulted.run budget ops).env.graph.Resolves u (.ok w)) :=
  ⟨ScopeGraph.resolves_again h,
    fun hops hcut => hcut.resolves_other (Consulted.readable_run budget hops)⟩

/-- `A` is a pointer to `B`, and `B` is a pointer to `A`. -/
def mutualPointers : List Operation :=
  [.scopes (.define "p.B".toList "A".toList), .scopes (.define "p.A".toList "B".toList)]

theorem readable_mutualPointers : ∀ op ∈ mutualPointers, op.Readable := by
  intro op hop
  rcases List.mem_cons.mp hop with rfl | hop
  · exact ⟨by decide, by decide⟩
  · cases List.mem_singleton.mp hop
    exact ⟨by decide, by decide⟩

theorem mutual_pointers_resolve :
    (Consulted.run 8 mutualPointers).env.graph.Resolves "A".toList (.ok "p.B".toList) ∧
      (Consulted.run 8 mutualPointers).env.graph.Resolves "p.B".toList (.ok "p.p.A".toList) :=
  ⟨ScopeGraph.resolves_of_resolveTo (n := 8) (by decide +kernel) (by simp),
    ScopeGraph.resolves_of_resolveTo (n := 8) (by decide +kernel) (by simp)⟩

/-- The run from `A` is cut off at `p.B`, where the next step wraps `A`. -/
theorem mutual_pointer_cutOff :
    (Consulted.run 8 mutualPointers).env.graph.CutOff "A".toList "p.B".toList := by
  have hfirst : (Consulted.run 8 mutualPointers).env.graph.Becomes "A".toList "p.B".toList :=
    ScopeGraph.expansion_of_expandType (k := 8) (m := 8) (by decide +kernel) (by simp)
  have hsecond : (Consulted.run 8 mutualPointers).env.graph.Becomes "p.B".toList "p.p.A".toList :=
    ScopeGraph.expansion_of_expandType (k := 8) (m := 8) (by decide +kernel) (by simp)
  exact ⟨"A".toList, "p.p.A".toList, .refl, .single hfirst, hsecond, by decide +kernel,
    by decide +kernel⟩

theorem mutual_pointer_resolves_further :
    ∃ w, w ≠ "p.B".toList ∧
      (Consulted.run 8 mutualPointers).env.graph.Resolves "p.B".toList (.ok w) :=
  (resolves_twice mutual_pointers_resolve.1).2 readable_mutualPointers mutual_pointer_cutOff

theorem mutual_pointer_not_idempotent :
    (∀ op ∈ mutualPointers, op.Readable) ∧
      (Consulted.run 8 mutualPointers).env.graph.Resolves "A".toList (.ok "p.B".toList) ∧
      (Consulted.run 8 mutualPointers).env.graph.Resolves "p.B".toList (.ok "p.p.A".toList) ∧
      ¬ (Consulted.run 8 mutualPointers).env.graph.Resolves "p.B".toList (.ok "p.B".toList) := by
  obtain ⟨hfirst, hagain⟩ := mutual_pointers_resolve
  refine ⟨readable_mutualPointers, hfirst, hagain, fun hself => ?_⟩
  have hsame := Except.ok.inj (hagain.unique hself)
  exact absurd hsame (by decide)

end BindingTypes
