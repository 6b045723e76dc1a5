import BindingTypes.Proofs.Scope.Nesting
import Mathlib.Data.Finset.Card

namespace BindingTypes.ScopeGraph

open Relation

/-- The scope `b` stands right around `a`. -/
def StandsIn (g : ScopeGraph) (a b : ScopeId) : Prop := (g.scope a).parent = some b

/-- A scope where names of scopes are looked for: around the first one, or used from there. -/
def InSight (g : ScopeGraph) (start s : ScopeId) : Prop :=
  ∃ a, ReflTransGen g.StandsIn start a ∧ ReflTransGen g.UsesScope a s

/-- No scope is named `wanted` in this one, and all it uses is visited. -/
def Exhausts (g : ScopeGraph) (wanted : Text) (visited : List ScopeId) (id : ScopeId) : Prop :=
  g.byName.get? (g.nameIn id wanted) = none ∧ ∀ i, g.UsesScope id i → i ∈ visited

/-- What a search that found nothing leaves: what it visited is exhausted. -/
structure Visits (g : ScopeGraph) (wanted : Text) (visited visited' : List ScopeId) : Prop where
  kept : visited ⊆ visited'
  exhausted : ∀ i ∈ visited', i ∉ visited → g.Exhausts wanted visited' i

/-- The number of scopes that are still to be visited. -/
def unvisited (g : ScopeGraph) (visited : List ScopeId) : Nat :=
  ((Finset.range g.scopes.length).filter (· ∉ visited)).card

/-- Where a search finds nothing, it has exhausted the scope it was asked for and all it visited. It
is given a step for each scope that is not visited. -/
def FindsAll (g : ScopeGraph) (wanted : Text) (fuel : Nat)
    (search : List ScopeId → ScopeId → Option ScopeId × List ScopeId) : Prop :=
  ∀ visited visited' id, g.unvisited visited < fuel → search visited id = (none, visited') →
    g.Visits wanted visited visited' ∧ g.Exhausts wanted visited' id

variable {g : ScopeGraph} {wanted n : Text} {fuel more : Nat} {id start s : ScopeId}
  {visited visited' visited'' ids : List ScopeId}

theorem Exhausts.mono (h : g.Exhausts wanted visited id) (hv : visited ⊆ visited') :
    g.Exhausts wanted visited' id := ⟨h.1, fun i hi => hv (h.2 i hi)⟩

theorem Visits.refl (g : ScopeGraph) (wanted : Text) (visited : List ScopeId) :
    g.Visits wanted visited visited := ⟨List.Subset.refl _, fun _ hi hnew => absurd hi hnew⟩

theorem Visits.trans (h : g.Visits wanted visited visited')
    (h' : g.Visits wanted visited' visited'') : g.Visits wanted visited visited'' := by
  refine ⟨fun i hi => h'.kept (h.kept hi), fun i hi hnew => ?_⟩
  by_cases hmid : i ∈ visited'
  · exact (h.exhausted i hmid hnew).mono h'.kept
  · exact h'.exhausted i hi hmid

theorem Visits.cons (h : g.Visits wanted (id :: visited) visited')
    (hid : g.Exhausts wanted visited' id) : g.Visits wanted visited visited' := by
  refine ⟨fun i hi => h.kept (List.mem_cons_of_mem _ hi), fun i hi hnew => ?_⟩
  by_cases hself : i = id
  · exact hself ▸ hid
  · exact h.exhausted i hi fun hmem => (List.mem_cons.mp hmem).elim hself hnew

theorem unvisited_le (h : visited ⊆ visited') : g.unvisited visited' ≤ g.unvisited visited :=
  Finset.card_le_card fun i hi => by
    rw [Finset.mem_filter] at hi ⊢
    exact ⟨hi.1, fun hmem => hi.2 (h hmem)⟩

theorem unvisited_cons (hid : id < g.scopes.length) (hnew : id ∉ visited) :
    g.unvisited (id :: visited) < g.unvisited visited := by
  refine Finset.card_lt_card ⟨fun i hi => ?_, fun hsub => ?_⟩
  · rw [Finset.mem_filter] at hi ⊢
    exact ⟨hi.1, fun hmem => hi.2 (List.mem_cons_of_mem _ hmem)⟩
  · have hid' := hsub (Finset.mem_filter.mpr ⟨Finset.mem_range.mpr hid, hnew⟩)
    exact (Finset.mem_filter.mp hid').2 List.mem_cons_self

theorem unvisited_le_length (g : ScopeGraph) (visited : List ScopeId) :
    g.unvisited visited ≤ g.scopes.length :=
  (Finset.card_filter_le _ _).trans_eq (Finset.card_range _)

section Search

variable {search search' : List ScopeId → ScopeId → Option ScopeId × List ScopeId}

theorem firstUnvisited_none (hs : g.FindsAll wanted fuel search)
    (hids : ∀ i ∈ ids, i < g.scopes.length) (hf : g.unvisited visited ≤ fuel)
    (h : firstUnvisited search ids visited = (none, visited')) :
    g.Visits wanted visited visited' ∧ ∀ i ∈ ids, i ∈ visited' := by
  induction ids generalizing visited with
  | nil =>
    cases h
    exact ⟨.refl g wanted visited', nofun⟩
  | cons i ids ih =>
    have hrest := fun i' hi' => hids i' (List.mem_cons_of_mem _ hi')
    unfold firstUnvisited at h
    split at h
    · rename_i hold
      obtain ⟨hvisits, hmem⟩ := ih hrest hf h
      exact ⟨hvisits, List.forall_mem_cons.mpr ⟨hvisits.kept hold, hmem⟩⟩
    · rename_i hnew
      split at h
      · cases h
      · rename_i visited₁ hsearch
        have hless := unvisited_cons (hids i List.mem_cons_self) hnew
        obtain ⟨hfirst, hself⟩ := hs _ _ i (Nat.lt_of_lt_of_le hless hf) hsearch
        have hfirst' := hfirst.cons hself
        obtain ⟨hvisits, hmem⟩ := ih hrest ((unvisited_le hfirst'.kept).trans hf) h
        exact ⟨hfirst'.trans hvisits, List.forall_mem_cons.mpr
          ⟨hvisits.kept (hfirst.kept List.mem_cons_self), hmem⟩⟩

/-- Searches that agree with few scopes left to visit give the same first answer. -/
theorem firstUnvisited_eq (hs : g.FindsAll wanted fuel search)
    (hagree : ∀ {visited id}, g.unvisited visited < fuel → search' visited id = search visited id)
    (hids : ∀ i ∈ ids, i < g.scopes.length) (hf : g.unvisited visited ≤ fuel) :
    firstUnvisited search' ids visited = firstUnvisited search ids visited := by
  induction ids generalizing visited with
  | nil => rfl
  | cons i ids ih =>
    have hrest := fun i' hi' => hids i' (List.mem_cons_of_mem _ hi')
    unfold firstUnvisited
    split
    · exact ih hrest hf
    · rename_i hnew
      have hless := Nat.lt_of_lt_of_le (unvisited_cons (hids i List.mem_cons_self) hnew) hf
      rw [hagree hless]
      split
      · rfl
      · rename_i visited₁ hsearch
        obtain ⟨hfirst, hself⟩ := hs _ _ i hless hsearch
        exact ih hrest ((unvisited_le (hfirst.cons hself).kept).trans hf)

end Search

/-- With a step for each scope that is not visited, a search within a scope that finds nothing has
exhausted all it visited. -/
theorem InRange.findWithin_none (hg : InRange g) (wanted : Text) (fuel : Nat) :
    g.FindsAll wanted fuel (g.findWithin wanted fuel) := by
  induction fuel with
  | zero => exact fun visited _ _ hf => absurd hf (Nat.not_lt_zero _)
  | succ fuel ih =>
    intro visited visited' id hf h
    unfold findWithin at h
    split at h
    · cases h
    · rename_i hnone
      obtain ⟨hvisits, hmem⟩ := firstUnvisited_none ih (hg.usings id) (Nat.le_of_lt_succ hf) h
      exact ⟨hvisits, hnone, hmem⟩

/-- More steps than scopes to visit change nothing. -/
theorem InRange.findWithin_of_le (hg : InRange g) (hle : fuel ≤ more)
    (hf : g.unvisited visited < fuel) :
    g.findWithin wanted more visited id = g.findWithin wanted fuel visited id := by
  induction fuel generalizing more visited id with
  | zero => exact absurd hf (Nat.not_lt_zero _)
  | succ fuel ih =>
    obtain ⟨more, rfl⟩ := Nat.exists_eq_add_one.mpr (Nat.lt_of_lt_of_le (Nat.succ_pos _) hle)
    unfold findWithin
    rw [firstUnvisited_eq (hg.findWithin_none wanted fuel)
      (ih (Nat.le_of_succ_le_succ hle)) (hg.usings id) (Nat.le_of_lt_succ hf)]

theorem InRange.findOutward_none (hg : InRange g) (h : g.findOutward wanted ids visited = none) :
    ∃ visited', g.Visits wanted visited visited' ∧ ∀ a ∈ ids, g.Exhausts wanted visited' a := by
  induction ids generalizing visited with
  | nil => exact ⟨visited, .refl g wanted visited, nofun⟩
  | cons a ids ih =>
    unfold findOutward at h
    split at h
    · cases h
    · rename_i visited₁ hsearch
      obtain ⟨hfirst, hself⟩ := hg.findWithin_none wanted _ _ _ a
        (Nat.lt_succ_of_le (unvisited_le_length g visited)) hsearch
      obtain ⟨visited', hvisits, hrest⟩ := ih h
      exact ⟨visited', hfirst.trans hvisits,
        List.forall_mem_cons.mpr ⟨hself.mono hvisits.kept, hrest⟩⟩

/-- What is used from an exhausted scope is exhausted, where all that is visited is. -/
theorem Exhausts.of_used (hall : ∀ i ∈ visited, g.Exhausts wanted visited i)
    (hid : g.Exhausts wanted visited id) (h : ReflTransGen g.UsesScope id s) :
    g.Exhausts wanted visited s := by
  induction h with
  | refl => exact hid
  | tail _ hstep ih => exact hall _ (ih.2 _ hstep)

section Outward

theorem StandsIn.of_mem_outwardFrom (h : s ∈ g.outwardFrom fuel id) :
    ReflTransGen g.StandsIn id s := by
  induction fuel generalizing id with
  | zero => cases h
  | succ fuel ih =>
    unfold outwardFrom at h
    rcases List.mem_cons.mp h with rfl | h
    · exact .refl
    · split at h
      · rename_i p hp
        exact .head hp (ih h)
      · cases h

variable (hn : Nested g)
include hn

/-- The way out leads through every scope around. -/
theorem Nested.mem_outwardFrom (hid : id < g.scopes.length) (hf : id < fuel)
    (h : ReflTransGen g.StandsIn id s) : s ∈ g.outwardFrom fuel id := by
  induction h using ReflTransGen.head_induction_on generalizing fuel with
  | refl =>
    obtain ⟨fuel, rfl⟩ := Nat.exists_eq_add_one.mpr (Nat.lt_of_le_of_lt (Nat.zero_le _) hf)
    exact List.mem_cons_self
  | head hstep _ ih =>
    obtain ⟨fuel, rfl⟩ := Nat.exists_eq_add_one.mpr (Nat.lt_of_le_of_lt (Nat.zero_le _) hf)
    have hlt := hn.lt_of_parent hid hstep
    unfold outwardFrom
    rw [hstep]
    exact List.mem_cons_of_mem _ (ih (hlt.trans hid)
      (Nat.lt_of_lt_of_le hlt (Nat.le_of_lt_succ hf)))

theorem Nested.mem_outward_iff (hid : id < g.scopes.length) :
    s ∈ g.outward id ↔ ReflTransGen g.StandsIn id s :=
  ⟨StandsIn.of_mem_outwardFrom, hn.mem_outwardFrom hid (Nat.lt_succ_of_lt hid)⟩

end Outward

theorem InRange.lt_of_inSight (hg : InRange g) (hs : start < g.scopes.length)
    (h : g.InSight start s) : s < g.scopes.length := by
  obtain ⟨a, hout, hused⟩ := h
  have ha : a < g.scopes.length := by
    induction hout with
    | refl => exact hs
    | tail _ hstep _ => exact hg.parent _ _ hstep
  induction hused with
  | refl => exact ha
  | tail _ hstep _ => exact hg.usings _ _ hstep

theorem findNamed_eq_none_iff (hg : InRange g) (hn : Nested g) (hs : start < g.scopes.length) :
    g.findNamed start n = none ↔
      ∀ s, g.InSight start s → g.byName.get? (g.nameIn s n) = none := by
  constructor
  · rintro h s ⟨a, hout, hused⟩
    obtain ⟨visited, hvisits, hall⟩ := hg.findOutward_none h
    have ha := hall a ((hn.mem_outward_iff hs).mpr hout)
    exact (ha.of_used (fun i hi => hvisits.exhausted i hi List.not_mem_nil) hused).1
  · intro h
    cases hfound : g.findNamed start n with
    | none => rfl
    | some hit =>
      obtain ⟨a, ha, s, hused, hk⟩ := findOutward_hit hfound
      rw [h s ⟨a, (hn.mem_outward_iff hs).mp ha, hused⟩] at hk
      cases hk

section Kept

variable {g' : ScopeGraph} (hg : InRange g) (hle : g.scopes.length ≤ g'.scopes.length)
  (hplace : ∀ id, id < g.scopes.length →
    (g'.scope id).parent = (g.scope id).parent ∧ (g'.scope id).usings = (g.scope id).usings)
  (hkeys : ∀ id, id < g.scopes.length →
    g'.byName.get? (g'.nameIn id wanted) = g.byName.get? (g.nameIn id wanted))

theorem firstUnvisited_congr
    {search search' : List ScopeId → ScopeId → Option ScopeId × List ScopeId}
    (h : ∀ i ∈ ids, ∀ visited, search' visited i = search visited i) (visited : List ScopeId) :
    firstUnvisited search' ids visited = firstUnvisited search ids visited := by
  induction ids generalizing visited with
  | nil => rfl
  | cons i ids ih =>
    obtain ⟨hi, hids⟩ := List.forall_mem_cons.mp h
    unfold firstUnvisited
    rw [hi]
    simp only [ih hids]

include hg hplace hkeys in
theorem findWithin_eq (fuel : Nat) (hid : id < g.scopes.length) :
    g'.findWithin wanted fuel visited id = g.findWithin wanted fuel visited id := by
  induction fuel generalizing visited id with
  | zero => rfl
  | succ fuel ih =>
    unfold findWithin
    rw [hkeys id hid, (hplace id hid).2]
    rw [firstUnvisited_congr fun i hi visited => ih (hg.usings id i hi)]

include hg hle hplace hkeys in
theorem findOutward_eq (hids : ∀ i ∈ ids, i < g.scopes.length) :
    g'.findOutward wanted ids visited = g.findOutward wanted ids visited := by
  induction ids generalizing visited with
  | nil => rfl
  | cons i ids ih =>
    obtain ⟨hi, hids⟩ := List.forall_mem_cons.mp hids
    have hwithin : g'.findWithin wanted (g'.scopes.length + 1) visited i =
        g.findWithin wanted (g.scopes.length + 1) visited i :=
      (findWithin_eq hg hplace hkeys _ hi).trans (hg.findWithin_of_le (Nat.succ_le_succ hle)
        (Nat.lt_succ_of_le (unvisited_le_length g visited)))
    unfold findOutward
    rw [hwithin]
    simp only [ih hids]

include hg hle hplace hkeys in
/-- Where the table of names answers alike in every scope there was, a name means the same scope. -/
theorem findNamed_eq (hn : Nested g) (hs : start < g.scopes.length) :
    g'.findNamed start wanted = g.findNamed start wanted := by
  obtain ⟨hout, hlt⟩ := hn.outward_eq (fun id hid => (hplace id hid).1) hle hs
  rw [findNamed, findNamed, hout]
  exact findOutward_eq hg hle hplace hkeys hlt

end Kept

/-- The search of a scope by a name without template arguments ends with an answer, however the
scopes use each other: steps beyond the number of scopes change nothing. It finds one where the
table has the name inside a scope in sight, and only there, and gives what the table has. -/
theorem findScope_complete (hg : ReachedBy NamesGivenOut g) (hn : CType.isTemplate n = false) :
    g.findScope n = .ok (g.findNamed g.current n) ∧
    (∀ fuel, g.scopes.length < fuel →
      g.outwardFrom fuel g.current = g.outward g.current ∧
      ∀ visited id, g.findWithin n fuel visited id =
        g.findWithin n (g.scopes.length + 1) visited id) ∧
    ((g.findNamed g.current n).isSome ↔ ∃ s, s < g.scopes.length ∧ g.InSight g.current s ∧
      g.byName.contains (g.nameIn s n) = true) ∧
    ∀ hit, g.findNamed g.current n = some hit → hit < g.scopes.length ∧
      ∃ s, s < g.scopes.length ∧ g.InSight g.current s ∧
        g.byName.get? (g.nameIn s n) = some hit := by
  have hrange := hg.inRange
  have hnested := hg.nested
  have hcurrent := hrange.current
  refine ⟨?_, fun fuel hfuel => ⟨?_, fun visited id => ?_⟩, ?_, fun hit hfound => ?_⟩
  · unfold findScope findScopeVia findScopeFrom
    rw [if_neg (Bool.eq_false_iff.mp hn)]
    rfl
  · exact hnested.outwardFrom_of_le hcurrent (Nat.lt_succ_of_lt hcurrent) hfuel
  · exact hrange.findWithin_of_le hfuel (Nat.lt_succ_of_le (unvisited_le_length g visited))
  · rw [← not_iff_not, Option.not_isSome_iff_eq_none,
      findNamed_eq_none_iff hrange hnested hcurrent]
    constructor
    · rintro h ⟨s, -, hs, hk⟩
      rw [Table.contains, h s hs] at hk
      cases hk
    · intro h s hs
      by_contra hk
      exact h ⟨s, hrange.lt_of_inSight hcurrent hs, hs, Option.isSome_iff_ne_none.mpr hk⟩
  · obtain ⟨a, ha, s, hused, hk⟩ := findOutward_hit hfound
    have hs : g.InSight g.current s := ⟨a, (hnested.mem_outward_iff hcurrent).mp ha, hused⟩
    exact ⟨hrange.found _ _ hk, s, hrange.lt_of_inSight hcurrent hs, hs, hk⟩

/-- Two namespaces that use each other, the second with a namespace inside. -/
theorem findScope_cycle : ∃ g : ScopeGraph, ReachedBy NamesGivenOut g ∧ g.current = 1 ∧
    g.UsesScope 1 2 ∧ g.UsesScope 2 1 ∧ CType.isTemplate "Inner".toList = false ∧
    g.findScope "Inner".toList = .ok (some 3) ∧ g.findScope "Other".toList = .ok none := by
  have hg : ReachedBy NamesGivenOut (((((((((new 0).editAfresh (.enter "A".toList)).editAfresh
      .leave).editAfresh (.enter "B".toList)).editAfresh (.enter "Inner".toList)).editAfresh
      .leave).editAfresh (.useNamespace 1)).editAfresh (.select (some 1))).editAfresh
      (.useNamespace 2)) := by
    refine .editAfresh (.editAfresh (.editAfresh (.editAfresh (.editAfresh (.editAfresh
      (.editAfresh (.editAfresh (.new 0) trivial) trivial) trivial) trivial) trivial) ?_) ?_) ?_
    · show 1 < _
      decide
    · rintro i hi
      cases hi
      decide
    · show 2 < _
      decide
  generalize hG : ScopeGraph.editAfresh _ _ = g at hg
  have hshape : g.current = 1 ∧ 2 ∈ (g.scope 1).usings ∧ 1 ∈ (g.scope 2).usings := by
    rw [← hG]
    decide
  obtain ⟨hcurrent, hthere, hback⟩ := hshape
  refine ⟨g, hg, hcurrent, hthere, hback, by decide, ?_, ?_⟩
  · rw [(findScope_complete hg (by decide)).1, ← hG]
    decide
  · rw [(findScope_complete hg (by decide)).1, ← hG]
    decide

end BindingTypes.ScopeGraph
