import BindingTypes.Proofs.Scope.InRange
import BindingTypes.Proofs.Scope.Route

namespace BindingTypes.ScopeGraph

open Relation

/-- An edge of the search: to an inherited scope, or to the scope around. -/
def Leads (g : ScopeGraph) (a b : ScopeId) : Prop :=
  b ∈ (g.scope a).inherits ∨ (g.scope a).parent = some b

/-- The edges that leave a scope, in the order of the search: what it inherits, then outward. -/
def ways (g : ScopeGraph) (id : ScopeId) : List ScopeId :=
  (g.scope id).inherits ++ (g.scope id).parent.toList

def Defines (g : ScopeGraph) (n : Text) (id : ScopeId) : Prop :=
  (g.scope id).typedefs.contains n = true

variable {g : ScopeGraph} {n : Text} {e : TypedefEntry} {fuel : Nat} {path : List ScopeId}
  {id s d x : ScopeId} {turns : List Nat}

theorem defines_iff : g.Defines n id ↔ ∃ e, (g.scope id).typedefs.get? n = some e :=
  Option.isSome_iff_exists

theorem not_defines_iff : ¬ g.Defines n id ↔ (g.scope id).typedefs.get? n = none := by
  rw [Defines, Table.contains, Bool.not_eq_true, Option.isSome_eq_false_iff, Option.isNone_iff_eq_none]

theorem mem_ways {a b : ScopeId} : b ∈ g.ways a ↔ g.Leads a b := by
  rw [ways, List.mem_append, Option.mem_toList, Leads]

theorem lt_of_ways_ne_nil (h : g.ways id ≠ []) : id < g.scopes.length := by
  by_contra hid
  rw [ways, scope_of_length_le (Nat.le_of_not_lt hid)] at h
  exact h rfl

theorem visibleTypedef_eq (hs : s < g.scopes.length) :
    g.visibleTypedef s n = .ok (g.lookup s n) := by
  rw [visibleTypedef, get, List.getElem?_eq_getElem hs]
  rfl

theorem lookupAlong_succ (h : id ∉ path) (hown : ¬ g.Defines n id) :
    g.lookupAlong n (fuel + 1) path id =
      (g.ways id).findSome? (g.lookupAlong n fuel (id :: path)) := by
  unfold lookupAlong
  rw [if_neg h, ways, List.findSome?_append]
  simp only [not_defines_iff.mp hown]
  cases (g.scope id).inherits.findSome? (g.lookupAlong n fuel (id :: path)) with
  | some hit => rfl
  | none => cases (g.scope id).parent <;> simp

theorem lookupAlong_declared (h : id ∉ path) (hown : (g.scope id).typedefs.get? n = some e) :
    g.lookupAlong n (fuel + 1) path id = some (e, id) := by
  unfold lookupAlong
  rw [if_neg h]
  simp only [hown]

theorem lookupAlong_visited (h : id ∈ path) : g.lookupAlong n fuel path id = none := by
  cases fuel with
  | zero => rfl
  | succ fuel => exact if_pos h

theorem nil_le (turns : List Nat) : [] ≤ turns := not_lt.mp (List.not_lt_nil turns)

/-- A search without an answer has followed every route that is short enough. -/
theorem not_defines_of_route (h : g.lookupAlong n fuel path id = none)
    (hr : Route g.ways path id turns d) (hlen : turns.length < fuel) : ¬ g.Defines n d := by
  induction fuel generalizing path id turns with
  | zero => exact absurd hlen (Nat.not_lt_zero _)
  | succ fuel ih =>
    have hid := hr.start
    have hown : ¬ g.Defines n id := by
      intro hown
      obtain ⟨e, he⟩ := defines_iff.mp hown
      rw [lookupAlong_declared hid he] at h
      cases h
    cases hr with
    | here _ => exact hown
    | step _ hk hr =>
      rw [lookupAlong_succ hid hown, List.findSome?_eq_none_iff] at h
      exact ih (h _ (List.mem_of_getElem? hk)) hr (Nat.lt_of_succ_lt_succ hlen)

/-- The answer of a search is what the first route to a declaration leads to. -/
theorem route_of_lookupAlong (h : g.lookupAlong n fuel path id = some (e, d)) :
    ∃ turns, Route g.ways path id turns d ∧ (g.scope d).typedefs.get? n = some e ∧
      ∀ turns' d', Route g.ways path id turns' d' → g.Defines n d' → turns'.length < fuel →
        turns ≤ turns' := by
  induction fuel generalizing path id with
  | zero => cases h
  | succ fuel ih =>
    have hid : id ∉ path := by
      intro hid
      rw [lookupAlong_visited hid] at h
      cases h
    by_cases hown : g.Defines n id
    · obtain ⟨e', he⟩ := defines_iff.mp hown
      rw [lookupAlong_declared hid he] at h
      cases h
      exact ⟨[], .here hid, he, fun turns' _ _ _ _ => nil_le turns'⟩
    · rw [lookupAlong_succ hid hown, List.findSome?_eq_some_iff] at h
      obtain ⟨before, next, after, hways, hnext, hbefore⟩ := h
      obtain ⟨turns, hr, he, hfirst⟩ := ih hnext
      have hk : (g.ways id)[before.length]? = some next := by
        rw [hways, List.getElem?_append_right (Nat.le_refl _), Nat.sub_self]
        rfl
      refine ⟨before.length :: turns, .step hid hk hr, he, fun turns' d' hr' hd' hlen => ?_⟩
      cases hr' with
      | here _ => exact absurd hd' hown
      | @step _ _ next' _ k turns' _ hk' hr' =>
        have hlen' := Nat.lt_of_succ_lt_succ hlen
        rcases Nat.lt_trichotomy k before.length with hlt | rfl | hgt
        · -- nothing is declared along the earlier ways
          rw [hways, List.getElem?_append_left hlt] at hk'
          exact absurd hd' (not_defines_of_route (hbefore _ (List.mem_of_getElem? hk')) hr' hlen')
        · cases hk.symm.trans hk'
          exact List.cons_le_cons _ (hfirst turns' d' hr' hd' hlen')
        · exact le_of_lt (List.Lex.rel hgt)

theorem length_turns (h : Route g.ways [] s turns d) : turns.length ≤ g.scopes.length :=
  h.length_turns (fun _ => lt_of_ways_ne_nil) (List.forall_mem_nil _) List.nodup_nil

/-- With fuel for every route a search answers as the first route to a declaration says. -/
theorem lookupAlong_eq_some_iff (hfuel : g.scopes.length < fuel) :
    g.lookupAlong n fuel [] s = some (e, d) ↔
      ∃ turns, Route g.ways [] s turns d ∧ (g.scope d).typedefs.get? n = some e ∧
        ∀ turns' d', Route g.ways [] s turns' d' → g.Defines n d' → turns ≤ turns' := by
  have hshort : ∀ {turns d}, Route g.ways [] s turns d → turns.length < fuel :=
    fun hr => Nat.lt_of_le_of_lt (length_turns hr) hfuel
  constructor
  · intro h
    obtain ⟨turns, hr, he, hfirst⟩ := route_of_lookupAlong h
    exact ⟨turns, hr, he, fun turns' d' hr' hd' => hfirst turns' d' hr' hd' (hshort hr')⟩
  · rintro ⟨turns, hr, he, hfirst⟩
    cases hfound : g.lookupAlong n fuel [] s with
    | none => exact absurd (defines_iff.mpr ⟨e, he⟩) (not_defines_of_route hfound hr (hshort hr))
    | some found =>
      obtain ⟨e', d'⟩ := found
      obtain ⟨turns', hr', he', hfirst'⟩ := route_of_lookupAlong hfound
      have hle := hfirst turns' d' hr' (defines_iff.mpr ⟨e', he'⟩)
      have hle' := hfirst' turns d hr (defines_iff.mpr ⟨e, he⟩) (hshort hr)
      cases le_antisymm hle hle'
      cases hr.unique hr'
      cases he.symm.trans he'
      rfl

theorem lookup_eq_some_iff : g.lookup s n = some (e, d) ↔
    ∃ turns, Route g.ways [] s turns d ∧ (g.scope d).typedefs.get? n = some e ∧
      ∀ turns' d', Route g.ways [] s turns' d' → g.Defines n d' → turns ≤ turns' :=
  lookupAlong_eq_some_iff (Nat.lt_succ_self _)

/-- Further fuel changes no answer. -/
theorem lookupAlong_eq_lookup (hfuel : g.scopes.length < fuel) :
    g.lookupAlong n fuel [] s = g.lookup s n := by
  refine Option.ext fun ⟨e, d⟩ => ?_
  rw [lookupAlong_eq_some_iff hfuel, lookup_eq_some_iff]

theorem reaches_of_route (h : Route g.ways [] s turns d) : ReflTransGen g.Leads s d :=
  ReflTransGen.mono (fun _ _ => mem_ways.mp) _ _ h.reaches

theorem route_of_reaches (h : ReflTransGen g.Leads s d) : ∃ turns, Route g.ways [] s turns d :=
  Route.of_reaches (ReflTransGen.mono (fun _ _ => mem_ways.mpr) _ _ h)

/-- A search depends on the scopes that it can reach. -/
theorem lookup_eq_of_reached {g' : ScopeGraph}
    (h : ∀ d, ReflTransGen g.Leads s d → g'.scope d = g.scope d) : g'.lookup s n = g.lookup s n := by
  have hroute : ∀ {turns d}, Route g'.ways [] s turns d ↔ Route g.ways [] s turns d := by
    refine Route.congr_ways fun i hi => ?_
    rw [ways, ways, h i (ReflTransGen.mono (fun _ _ => mem_ways.mp) _ _ hi)]
  refine Option.ext fun ⟨e, d⟩ => ?_
  rw [lookup_eq_some_iff, lookup_eq_some_iff]
  refine exists_congr fun turns => ?_
  rw [hroute]
  refine and_congr_right fun hr => ?_
  rw [h d (reaches_of_route hr)]
  refine and_congr_right fun _ => forall_congr' fun turns' => forall_congr' fun d' => ?_
  rw [hroute]
  refine imp_congr_right fun hr' => ?_
  rw [Defines, Defines, h d' (reaches_of_route hr')]

/-- A name means something where a scope that declares it is reached. -/
theorem isSome_lookup_iff :
    (g.lookup s n).isSome ↔ ∃ d, ReflTransGen g.Leads s d ∧ g.Defines n d := by
  constructor
  · intro h
    obtain ⟨⟨e, d⟩, hfound⟩ := Option.isSome_iff_exists.mp h
    obtain ⟨turns, hr, he, -⟩ := lookup_eq_some_iff.mp hfound
    exact ⟨d, reaches_of_route hr, defines_iff.mpr ⟨e, he⟩⟩
  · rintro ⟨d, hreach, hd⟩
    obtain ⟨turns, hr⟩ := route_of_reaches hreach
    by_contra hfound
    rw [Option.not_isSome_iff_eq_none] at hfound
    exact not_defines_of_route hfound hr (Nat.lt_succ_of_le (length_turns hr)) hd

theorem InRange.reaches_lt (hg : InRange g) (hs : s < g.scopes.length)
    (h : ReflTransGen g.Leads s d) : d < g.scopes.length := by
  induction h with
  | refl => exact hs
  | tail _ hstep _ =>
    rcases hstep with hi | hp
    · exact hg.inherits _ _ hi
    · exact hg.parent _ _ hp

theorem InRange.lookup_lt (hg : InRange g) (hs : s < g.scopes.length)
    (h : g.lookup s n = some (e, d)) : d < g.scopes.length := by
  obtain ⟨turns, hr, -⟩ := lookup_eq_some_iff.mp h
  exact hg.reaches_lt hs (reaches_of_route hr)

theorem defines_inheritFrom (g : ScopeGraph) (x : ScopeId) (n : Text) :
    (g.inheritFrom x).Defines n id ↔ g.Defines n id := by
  unfold inheritFrom
  split
  · rfl
  · have hsame : ((touch (g.modifyScope g.current fun s =>
        { s with inherits := s.inherits ++ [x] })).scope id).typedefs = (g.scope id).typedefs := by
      refine Eq.trans (congrArg Scope.typedefs (scope_modifyScope g g.current id _)) ?_
      split <;> rfl
    rw [Defines, Defines, hsame]

theorem inherits_inheritFrom (hc : g.current < g.scopes.length) (x id : ScopeId) :
    ((g.inheritFrom x).scope id).inherits =
      if id = g.current ∧ ¬ (x = g.current ∨ x ∈ (g.scope g.current).inherits) then
        (g.scope id).inherits ++ [x]
      else (g.scope id).inherits := by
  unfold inheritFrom
  split
  · rename_i hno
    rw [if_neg fun h => h.2 hno]
  · rename_i hnew
    refine Eq.trans (congrArg Scope.inherits (scope_modifyScope g g.current id _)) ?_
    by_cases hid : id = g.current
    · rw [if_pos ⟨hid.symm, hid ▸ hc⟩, if_pos ⟨hid, hnew⟩]
    · rw [if_neg fun h => hid h.1.symm, if_neg fun h => hid h.1]

theorem parent_inheritFrom (g : ScopeGraph) (x id : ScopeId) :
    ((g.inheritFrom x).scope id).parent = (g.scope id).parent := by
  unfold inheritFrom
  split
  · rfl
  · refine Eq.trans (congrArg Scope.parent (scope_modifyScope g g.current id _)) ?_
    split <;> rfl

theorem Leads.inheritFrom {a b : ScopeId} (hc : g.current < g.scopes.length) (h : g.Leads a b) :
    (g.inheritFrom x).Leads a b := by
  rcases h with hi | hp
  · refine Or.inl ?_
    rw [inherits_inheritFrom hc]
    split
    · exact List.mem_append_left _ hi
    · exact hi
  · exact Or.inr ((parent_inheritFrom g x a).trans hp)

theorem Leads.of_inheritFrom {a b : ScopeId} (hc : g.current < g.scopes.length)
    (h : (g.inheritFrom x).Leads a b) : g.Leads a b ∨ b = x := by
  rcases h with hi | hp
  · rw [inherits_inheritFrom hc] at hi
    split at hi
    · exact (List.mem_append.mp hi).imp Or.inl List.mem_singleton.mp
    · exact Or.inl (Or.inl hi)
  · exact Or.inl (Or.inr ((parent_inheritFrom g x a).symm.trans hp))

theorem reaches_inherited (hc : g.current < g.scopes.length) (x : ScopeId) :
    ReflTransGen (g.inheritFrom x).Leads g.current x := by
  by_cases hself : x = g.current
  · exact hself ▸ .refl
  · refine .single (Or.inl ?_)
    rw [inherits_inheritFrom hc]
    split
    · exact List.mem_append_right _ List.mem_cons_self
    · rename_i hold
      by_contra hmem
      exact hold ⟨rfl, fun h => h.elim hself hmem⟩

/-- After a scope is inherited, what is reached is what was reached before or from there. -/
theorem reaches_inheritFrom (hc : g.current < g.scopes.length) (x d : ScopeId) :
    ReflTransGen (g.inheritFrom x).Leads g.current d ↔
      ReflTransGen g.Leads g.current d ∨ ReflTransGen g.Leads x d := by
  constructor
  · intro h
    induction h with
    | refl => exact Or.inl .refl
    | tail _ hstep ih =>
      rcases Leads.of_inheritFrom hc hstep with hstep | rfl
      · exact ih.imp (fun h => h.tail hstep) fun h => h.tail hstep
      · exact Or.inr .refl
  · have hmore : ∀ {a}, ReflTransGen g.Leads a d → ReflTransGen (g.inheritFrom x).Leads a d :=
      fun h => ReflTransGen.mono (fun _ _ => Leads.inheritFrom hc) _ _ h
    rintro (h | h)
    · exact hmore h
    · exact (reaches_inherited hc x).trans (hmore h)

/-- What means something after a scope is inherited meant something before, or there. -/
theorem isSome_lookup_inheritFrom (hc : g.current < g.scopes.length) (x : ScopeId) (n : Text) :
    ((g.inheritFrom x).lookup g.current n).isSome ↔
      (g.lookup g.current n).isSome ∨ (g.lookup x n).isSome := by
  simp only [isSome_lookup_iff, reaches_inheritFrom hc, defines_inheritFrom, or_and_right,
    exists_or]

/-- The search of a typedef ends with an answer, however the scopes inherit from each other. It
finds one where a scope with such a typedef is reached, and only there, in the scope itself if it
can; and to inherit a scope adds what is visible there and nothing else. -/
theorem visibleTypedef_complete (hg : ReachedBy NamesGivenOut g) (hs : s < g.scopes.length)
    (n : Text) :
    g.visibleTypedef s n = .ok (g.lookup s n) ∧
    (∀ fuel, g.scopes.length < fuel → g.lookupAlong n fuel [] s = g.lookup s n) ∧
    ((g.lookup s n).isSome ↔ ∃ d, d < g.scopes.length ∧ ReflTransGen g.Leads s d ∧
      g.Defines n d) ∧
    (∀ e d, g.lookup s n = some (e, d) → d < g.scopes.length ∧ ReflTransGen g.Leads s d ∧
      (g.scope d).typedefs.get? n = some e ∧ (g.Defines n s → d = s)) ∧
    (∀ x, x < g.scopes.length → (g.inheritFrom x).visibleTypedef g.current n =
      .ok ((g.inheritFrom x).lookup g.current n) ∧
      (((g.inheritFrom x).lookup g.current n).isSome ↔
        (g.lookup g.current n).isSome ∨ (g.lookup x n).isSome)) := by
  have hrange := hg.inRange
  refine ⟨visibleTypedef_eq hs, fun fuel => lookupAlong_eq_lookup, ?_, fun e d hfound => ?_, fun x _ =>
    ⟨visibleTypedef_eq ?_, isSome_lookup_inheritFrom hrange.current x n⟩⟩
  · rw [isSome_lookup_iff]
    constructor
    · rintro ⟨d, hreach, hd⟩
      exact ⟨d, hrange.reaches_lt hs hreach, hreach, hd⟩
    · rintro ⟨d, -, hreach, hd⟩
      exact ⟨d, hreach, hd⟩
  · obtain ⟨turns, hr, he, hfirst⟩ := lookup_eq_some_iff.mp hfound
    have hreach := reaches_of_route hr
    refine ⟨hrange.reaches_lt hs hreach, hreach, he, fun hown => ?_⟩
    -- no turn comes before the empty route
    cases le_antisymm (hfirst [] s (.here List.not_mem_nil) hown) (nil_le turns)
    exact hr.unique (.here List.not_mem_nil)
  · rw [length_inheritFrom]
    exact hrange.current

/-- Two scopes that inherit from each other, the second with a class. -/
theorem visibleTypedef_complete_cycle : ∃ g : ScopeGraph, ReachedBy NamesGivenOut g ∧
    g.Leads 1 2 ∧ g.Leads 2 1 ∧ 1 < g.scopes.length ∧
    g.visibleTypedef 1 "T".toList = .ok (some (⟨"T".toList, true⟩, 2)) := by
  have hg : ReachedBy NamesGivenOut ((((((((new 0).editAfresh (.enter "A".toList)).editAfresh
      .leave).editAfresh (.enter "B".toList)).editAfresh (.inheritFrom 1)).editAfresh
      (.defineClass "T".toList)).editAfresh (.select (some 1))).editAfresh (.inheritFrom 2)) := by
    refine .editAfresh (.editAfresh (.editAfresh (.editAfresh (.editAfresh (.editAfresh
      (.editAfresh (.new 0) trivial) trivial) trivial) ?_) trivial) ?_) ?_
    · show 1 < _
      decide
    · rintro i hi
      cases hi
      decide
    · show 2 < _
      decide
  generalize hG : ScopeGraph.editAfresh _ _ = g at hg
  have hs : 1 < g.scopes.length := by
    rw [← hG]
    decide
  refine ⟨g, hg, Or.inl ?_, Or.inl ?_, hs, ?_⟩
  · rw [← hG]
    decide
  · rw [← hG]
    decide
  · rw [(visibleTypedef_complete hg hs "T".toList).1, ← hG]
    decide

end BindingTypes.ScopeGraph
