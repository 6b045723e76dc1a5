import BindingTypes.Proofs.CType.FlatTypedefs

namespace BindingTypes

/-- A computation that keeps a count beside its work. -/
abbrev Counting : Type → Type := StateT Nat (Except Fault)

/-- Counting leaves the results as they are. -/
def uncounted : Simulation Counting Unit where
  related x y := ∀ i k, (x.run k).map (·.1) = y i
  pure a i k := rfl
  lift e i k := by cases e <;> rfl
  bind {α β x y f h} hx hf i k := by
    show ((x.run k).bind fun r => (f r.1).run r.2).map (·.1) = (y i).bind (h i)
    rw [← hx i k]
    cases x.run k with
    | error e => rfl
    | ok r => exact hf r.1 i r.2

namespace CType

open Relation

variable {es us : List Text} {t : CType}

/-- The list is what its text is cut into. -/
def Pieced (es : List Text) : Prop := elements es.flatten = .ok es

/-- The last element, where there is one. -/
abbrev lastOf (es : List Text) : Text := es.getLastD []

theorem pieced_of_elements (h : elements t = .ok es) : Pieced es := by
  rw [Pieced, flatten_of_elements h, h]

theorem exists_pieced (h : Balanced t) : ∃ es, Pieced es ∧ t = es.flatten := by
  obtain ⟨es, hes⟩ := elements_of_balanced h
  exact ⟨es, pieced_of_elements hes, (flatten_of_elements hes).symm⟩

theorem dropLast_append_lastOf (hne : es ≠ []) : es.dropLast ++ [lastOf es] = es := by
  obtain ⟨init, e, rfl⟩ := (List.eq_nil_or_concat es).resolve_left hne
  simp

theorem lastOf_append (es : List Text) (hne : us ≠ []) : lastOf (es ++ us) = lastOf us := by
  obtain ⟨init, e, rfl⟩ := (List.eq_nil_or_concat us).resolve_left hne
  simp

namespace Pieced

theorem split (h : Pieced es) : split es.flatten = .ok (es.dropLast.flatten, lastOf es) := by
  rw [CType.split, h]
  rfl

theorem base (h : Pieced es) : base es.flatten = .ok (lastOf es) := by
  rw [CType.base, h.split]
  rfl

theorem outline (h : Pieced es) :
    outline es.flatten = .ok ⟨Text.measured es.flatten, es.length, Text.measured (lastOf es)⟩ := by
  rw [CType.outline, h]
  rfl

/-- The base is empty only where nothing is. -/
theorem lastOf_ne_nil (h : Pieced es) (hne : es ≠ []) : lastOf es ≠ [] := by
  refine ne_nil_of_mem_elements h ?_
  rw [← dropLast_append_lastOf hne]
  simp

theorem flatten_ne_nil (h : Pieced es) (hne : es ≠ []) : es.flatten ≠ [] := by
  intro hnil
  rw [Pieced, hnil, elements_nil] at h
  exact hne (Except.ok.inj h).symm

/-- Another type takes the place of the base. -/
theorem rebased (h : Pieced es) (hu : Pieced us) : Pieced (es.dropLast ++ us) := by
  by_cases hne : es = []
  · rw [hne]
    exact hu
  · obtain ⟨fs, b, rfl, hfs, -, -⟩ := elements_cases h (h.flatten_ne_nil hne)
    rw [List.dropLast_concat, Pieced, List.flatten_append, elements_flatten hfs, hu]
    rfl

theorem wraps_iff {s : List Text} (h : Pieced es) (hs : Pieced s) :
    CType.wraps es.flatten s.flatten = .ok true ↔ s.length < es.length ∧ lastOf es = lastOf s := by
  rw [wraps_of_outline h.outline hs.outline, Except.ok.injEq, Outline.wraps, Bool.and_eq_true,
    decide_eq_true_eq, MeasuredText.same_iff]
  exact Iff.rfl

end Pieced

/-- The typedef `k` stands for a type with the base `b`. -/
def Leads (T : Table CType) (k b : Text) : Prop := ∃ u, T.get? k = some u ∧ base u = .ok b

/-- No typedef is found for the base, or the typedefs lead from the base back to it. -/
def Rests (T : Table CType) (t : CType) : Prop :=
  ∃ b, base t = .ok b ∧ (T.get? b = none ∨ TransGen (Leads T) b b)

/-- An expansion that counts how often it was asked for. -/
def counted (expand? : CType → Except Fault (Option CType)) (t : CType) :
    Counting (Option CType) := do
  modify (· + 1)
  expand? t

theorem run_lifted {α β : Type} {x : Except Fault α} {a : α} {f : α → Counting β} {k : Nat}
    (h : x = .ok a) : ((liftM x : Counting α) >>= f).run k = (f a).run k := by
  subst h
  rfl

section Loop

variable {expand? : CType → Except Fault (Option CType)} {next : CType} {o o' : Outline}
  {seen : List Outline}

theorem run_counted {found : Option CType} {f : Option CType → Counting CType} {k : Nat}
    (h : expand? t = .ok found) : (counted expand? t >>= f).run k = (f found).run (k + 1) :=
  run_lifted h

theorem counted_chase_none (n k : Nat) (h : expand? t = .ok none) :
    (Resolver.chase (counted expand?) (n + 1) seen t).run k = .ok (t, k + 1) := by
  rw [Resolver.chase, run_counted h]
  rfl

theorem counted_chase_some (n k : Nat) (h : expand? t = .ok (some next))
    (ho : outline t = .ok o) (ho' : outline next = .ok o') :
    (Resolver.chase (counted expand?) (n + 1) seen t).run k =
      if (o :: seen).any o'.wraps then .ok (t, k + 1)
      else if (o :: seen).any fun earlier => earlier.whole.same o'.whole then .ok (next, k + 1)
      else (Resolver.chase (counted expand?) n (o :: seen) next).run (k + 1) := by
  rw [Resolver.chase, run_counted h]
  dsimp only
  rw [run_lifted ho', run_lifted ho]
  split
  · rfl
  · split <;> rfl

theorem chase_of_counted {n k calls : Nat} {r : CType}
    (h : (Resolver.chase (counted expand?) n seen t).run k = .ok (r, calls)) :
    Resolver.chase expand? n seen t = .ok r := by
  have hstep : ∀ u, uncounted.related (counted expand? u) fun _ => expand? u := by
    intro u i k
    show ((liftM (expand? u) : Counting _).run (k + 1)).map (·.1) = expand? u
    cases expand? u <;> rfl
  have hsame := uncounted.chase hstep n seen t () k
  rw [h] at hsame
  exact hsame.symm

/-- The loop is left with a type that expansions lead to. -/
theorem chase_keeps {P : CType → Prop} {m : Nat} {r : CType}
    (hstep : ∀ t next, P t → expand? t = .ok (some next) → P next) (ht : P t)
    (h : Resolver.chase expand? m seen t = .ok r) : P r := by
  induction m generalizing t seen with
  | zero => cases h
  | succ m ih =>
    obtain ⟨expanded, hexpanded, h⟩ := bind_eq_ok h
    cases expanded with
    | none =>
      cases h
      exact ht
    | some next =>
      have hnext := hstep t next ht hexpanded
      obtain ⟨o', -, h⟩ := bind_eq_ok h
      obtain ⟨o, -, h⟩ := bind_eq_ok h
      dsimp only at h
      split at h
      · cases h
        exact ht
      · split at h
        · cases h
          exact hnext
        · exact ih hnext h

end Loop

section Flat

variable {T : Table CType} {past : List (List Text)} {seen : List Outline}

theorem flatExpand?_pieced (h : Pieced es) :
    Resolver.flatExpand? T es.flatten =
      .ok ((T.get? (lastOf es)).map (es.dropLast.flatten ++ ·)) := by
  rw [Resolver.flatExpand?, h.split]
  rfl

/-- The types of an expansion by their elements: the newest, and those before it. What stands in
front of the base of one type stands there in all that come after it, and no base comes twice. -/
structure Descent (T : Table CType) (past : List (List Text)) (es : List Text) : Prop where
  pieced : Pieced es
  earlier : ∀ s ∈ past, Pieced s ∧ s.dropLast <+: es.dropLast ∧
    TransGen (Leads T) (lastOf s) (lastOf es)
  distinct : ((es :: past).map lastOf).Nodup
  keys : past.map lastOf ⊆ T.keys

namespace Descent

theorem start (h : Pieced es) : Descent T [] es where
  pieced := h
  earlier := nofun
  distinct := by simp
  keys := List.nil_subset _

theorem outlined_next (h : Descent T past es) (hu : Pieced us)
    (hseen : Outlined (past.map List.flatten) seen) : ∃ o o', outline es.flatten = .ok o ∧
      outline (es.dropLast ++ us).flatten = .ok o' ∧
      Outlined ((es :: past).map List.flatten) (o :: seen) :=
  ⟨_, _, h.pieced.outline, (h.pieced.rebased hu).outline, .cons h.pieced.outline hseen⟩

theorem expanded (h : Descent T past es) (hget : T.get? (lastOf es) = some us.flatten) :
    Resolver.flatExpand? T es.flatten = .ok (some (es.dropLast ++ us).flatten) := by
  rw [flatExpand?_pieced h.pieced, hget, List.flatten_append]
  rfl

theorem keys_next (h : Descent T past es) (hget : T.get? (lastOf es) = some us.flatten) :
    (es :: past).map lastOf ⊆ T.keys := by
  rw [List.map_cons]
  exact List.cons_subset.mpr ⟨Table.mem_keys_iff.mpr (by rw [hget]; rfl), h.keys⟩

section Step

variable (h : Descent T past es) (hget : T.get? (lastOf es) = some us.flatten) (hu : Pieced us)
  (hne : us ≠ [])
include hget hu hne

theorem leads_rebased : Leads T (lastOf es) (lastOf (es.dropLast ++ us)) :=
  ⟨us.flatten, hget, by rw [hu.base, lastOf_append _ hne]⟩

include h

/-- All that came before is earlier than the next type. -/
theorem earlier_next : ∀ s ∈ es :: past, Pieced s ∧ s.dropLast <+: (es.dropLast ++ us).dropLast ∧
    TransGen (Leads T) (lastOf s) (lastOf (es.dropLast ++ us)) := by
  have hleads := leads_rebased hget hu hne
  have hfront : es.dropLast <+: (es.dropLast ++ us).dropLast := by
    rw [List.dropLast_append_of_ne_nil hne]
    exact List.prefix_append _ _
  refine List.forall_mem_cons.mpr ⟨⟨h.pieced, hfront, .single hleads⟩, fun s hs => ?_⟩
  obtain ⟨hpieced, hprefix, hleads'⟩ := h.earlier s hs
  exact ⟨hpieced, hprefix.trans hfront, hleads'.tail hleads⟩

theorem next (hfresh : lastOf (es.dropLast ++ us) ∉ (es :: past).map lastOf) :
    Descent T (es :: past) (es.dropLast ++ us) where
  pieced := h.pieced.rebased hu
  earlier := h.earlier_next hget hu hne
  distinct := List.nodup_cons.mpr ⟨hfresh, h.distinct⟩
  keys := h.keys_next hget

/-- Where the next base was met before, all of these typedefs lead back to themselves. -/
theorem rests_of_met {s : List Text} (hs : s ∈ es :: past)
    (hmet : lastOf s = lastOf (es.dropLast ++ us)) :
    Rests T es.flatten ∧ Rests T (es.dropLast ++ us).flatten := by
  have hcycle := (h.earlier_next hget hu hne s hs).2.2
  refine ⟨⟨_, h.pieced.base, Or.inr ?_⟩, ⟨_, (h.pieced.rebased hu).base, Or.inr (hmet ▸ hcycle)⟩⟩
  have hleads := leads_rebased hget hu hne
  rcases List.mem_cons.mp hs with rfl | hs
  · rwa [← hmet] at hcycle
  · have hback := (h.earlier s hs).2.2
    rw [hmet] at hback
    exact .head hleads hback

/-- The next type over a base that was met before is the type that was met, or wraps it. -/
theorem eq_or_wraps_of_met {s : List Text} (hs : s ∈ es :: past)
    (hmet : lastOf s = lastOf (es.dropLast ++ us)) :
    s = es.dropLast ++ us ∨ CType.wraps (es.dropLast ++ us).flatten s.flatten = .ok true := by
  obtain ⟨hpieced, hfront, -⟩ := h.earlier_next hget hu hne s hs
  have hnext := h.pieced.rebased hu
  have hne' : es.dropLast ++ us ≠ [] := by simp [hne]
  have hsne : s ≠ [] := by
    rintro rfl
    exact hnext.lastOf_ne_nil hne' hmet.symm
  rw [hnext.wraps_iff hpieced]
  generalize es.dropLast ++ us = next at *
  have hlength := hfront.length_le
  rw [List.length_dropLast, List.length_dropLast] at hlength
  have hpos := List.length_pos_iff.mpr hsne
  by_cases hlt : s.length < next.length
  · exact Or.inr ⟨hlt, hmet.symm⟩
  · have heq : s.dropLast = next.dropLast := hfront.eq_of_length (by
      rw [List.length_dropLast, List.length_dropLast]
      omega)
    left
    rw [← dropLast_append_lastOf hsne, ← dropLast_append_lastOf hne', heq, hmet]

variable (hseen : Outlined (past.map List.flatten) seen)
include hseen

/-- The loop ends where a base comes a second time. -/
theorem chase_of_met (hmet : lastOf (es.dropLast ++ us) ∈ (es :: past).map lastOf) :
    ∃ r, Rests T r ∧ ∀ n k,
      (Resolver.chase (counted (Resolver.flatExpand? T)) (n + 1) seen es.flatten).run k =
        .ok (r, k + 1) := by
  obtain ⟨s, hs, hlast⟩ := List.mem_map.mp hmet
  obtain ⟨hrests, hrests'⟩ := h.rests_of_met hget hu hne hs hlast
  have hmem : s.flatten ∈ (es :: past).map List.flatten := List.mem_map_of_mem hs
  obtain ⟨o, o', ho, ho', hseen'⟩ := h.outlined_next hu hseen
  cases hwraps : (o :: seen).any o'.wraps with
  | true =>
    refine ⟨es.flatten, hrests, fun n k => ?_⟩
    rw [counted_chase_some n k (h.expanded hget) ho ho', if_pos hwraps]
  | false =>
    have hsame : (o :: seen).any (fun earlier => earlier.whole.same o'.whole) = true := by
      rcases h.eq_or_wraps_of_met hget hu hne hs hlast with rfl | hw
      · exact (hseen'.any_same ho').mpr hmem
      · rw [(hseen'.any_wraps ho').mpr ⟨_, hmem, hw⟩] at hwraps
        cases hwraps
    refine ⟨(es.dropLast ++ us).flatten, hrests', fun n k => ?_⟩
    rw [counted_chase_some n k (h.expanded hget) ho ho', if_neg (by simp [hwraps]), if_pos hsame]

/-- The loop goes on with a base that was not met. -/
theorem chase_of_fresh (hfresh : lastOf (es.dropLast ++ us) ∉ (es :: past).map lastOf) :
    ∃ seen', Outlined ((es :: past).map List.flatten) seen' ∧ ∀ n k,
      (Resolver.chase (counted (Resolver.flatExpand? T)) (n + 1) seen es.flatten).run k =
        (Resolver.chase (counted (Resolver.flatExpand? T)) n seen'
          (es.dropLast ++ us).flatten).run (k + 1) := by
  obtain ⟨o, o', ho, ho', hseen'⟩ := h.outlined_next hu hseen
  have hnext := h.pieced.rebased hu
  have hpast := h.earlier_next hget hu hne
  have hwraps : ¬ (o :: seen).any o'.wraps = true := by
    intro hany
    obtain ⟨_, hmem, hw⟩ := (hseen'.any_wraps ho').mp hany
    obtain ⟨s, hs, rfl⟩ := List.mem_map.mp hmem
    exact hfresh (List.mem_map.mpr ⟨s, hs, ((hnext.wraps_iff (hpast s hs).1).mp hw).2.symm⟩)
  have hsame : ¬ (o :: seen).any (fun earlier => earlier.whole.same o'.whole) = true := by
    intro hany
    obtain ⟨s, hs, heq⟩ := List.mem_map.mp ((hseen'.any_same ho').mp hany)
    have hlast : lastOf s = lastOf (es.dropLast ++ us) := by
      have hbase := (hpast s hs).1.base
      rw [heq, hnext.base] at hbase
      exact (Except.ok.inj hbase).symm
    exact hfresh (List.mem_map.mpr ⟨s, hs, hlast⟩)
  refine ⟨_, hseen', fun n k => ?_⟩
  rw [counted_chase_some n k (h.expanded hget) ho ho', if_neg hwraps, if_neg hsame]

end Step

end Descent

/-- A table of well-formed types that are not empty. -/
def IsFlatTable (T : Table CType) : Prop := ∀ {k u}, T.get? k = some u → Balanced u ∧ u ≠ []

/-- The loop asks for one expansion of each type on its way and stops where no typedef is left or a
base comes a second time. -/
theorem counted_chase (hT : IsFlatTable T) (h : Descent T past es)
    (hseen : Outlined (past.map List.flatten) seen) :
    ∃ calls r, calls + past.length ≤ T.size + 1 ∧ Rests T r ∧ ∀ n k, calls ≤ n →
      (Resolver.chase (counted (Resolver.flatExpand? T)) n seen es.flatten).run k =
        .ok (r, k + calls) := by
  induction hk : T.size - past.length using Nat.strongRecOn generalizing past es seen with
  | ind k ih =>
    have hpast : past.length ≤ T.size := by
      have hlength := Table.length_le_size (List.nodup_cons.mp h.distinct).2 h.keys
      rwa [List.length_map] at hlength
    cases hget : T.get? (lastOf es) with
    | none =>
      have hstep : Resolver.flatExpand? T es.flatten = .ok none := by
        rw [flatExpand?_pieced h.pieced, hget]
        rfl
      refine ⟨1, es.flatten, by omega, ⟨_, h.pieced.base, Or.inl hget⟩, fun n k hn => ?_⟩
      obtain ⟨n, rfl⟩ : ∃ m, n = m + 1 := ⟨n - 1, by omega⟩
      exact counted_chase_none n k hstep
    | some u =>
      obtain ⟨hbalanced, hnonempty⟩ := hT hget
      obtain ⟨us, hu, rfl⟩ := exists_pieced hbalanced
      have hne : us ≠ [] := by
        rintro rfl
        exact hnonempty rfl
      have hroom : past.length + 1 ≤ T.size := by
        have hlength := Table.length_le_size h.distinct (h.keys_next hget)
        rwa [List.length_map] at hlength
      by_cases hmet : lastOf (es.dropLast ++ us) ∈ (es :: past).map lastOf
      · obtain ⟨r, hrests, hrun⟩ := h.chase_of_met hget hu hne hseen hmet
        refine ⟨1, r, by omega, hrests, fun n k hn => ?_⟩
        obtain ⟨n, rfl⟩ : ∃ m, n = m + 1 := ⟨n - 1, by omega⟩
        exact hrun n k
      · obtain ⟨seen', hseen', hrun⟩ := h.chase_of_fresh hget hu hne hseen hmet
        obtain ⟨calls, r, hcalls, hrests, hrest⟩ :=
          ih _ (by rw [List.length_cons]; omega) (h.next hget hu hne hmet) hseen' rfl
        rw [List.length_cons] at hcalls
        refine ⟨calls + 1, r, by omega, hrests, fun n k hn => ?_⟩
        obtain ⟨n, rfl⟩ : ∃ m, n = m + 1 := ⟨n - 1, by omega⟩
        rw [hrun, hrest n (k + 1) (by omega), Nat.add_assoc, Nat.add_comm 1 calls]

theorem counted_chase_start (hT : IsFlatTable T) (ht : Balanced t) :
    ∃ calls r, calls ≤ T.size + 1 ∧ Rests T r ∧ ∀ n, calls ≤ n →
      (Resolver.chase (counted (Resolver.flatExpand? T)) n [] t).run 0 = .ok (r, calls) := by
  obtain ⟨es, hes, rfl⟩ := exists_pieced ht
  have houtlined : Outlined (([] : List (List Text)).map List.flatten) [] := .nil
  obtain ⟨calls, r, hcalls, hrests, hrun⟩ := counted_chase hT (Descent.start hes) houtlined
  refine ⟨calls, r, hcalls, hrests, fun n hn => ?_⟩
  rw [hrun n 0 hn, Nat.zero_add]

theorem exists_resolved {n : Nat} (hT : IsFlatTable T) (hn : T.size ≤ n) (ht : Balanced t) :
    ∃ r, (Resolver.flat T n).resolve t = .ok r := by
  obtain ⟨calls, r, hcalls, -, hrun⟩ := counted_chase_start hT ht
  exact ⟨r, chase_of_counted (hrun (n + 1) (by omega))⟩

/-- The loop ends on every table, with at most one expansion asked for more than there are
typedefs, and no typedef is left for its result that does not lead back to itself. -/
theorem flat_resolve_rests (T : Table CType) (hT : IsFlatTable T) (t : CType) (ht : Balanced t) :
    ∃ calls r, calls ≤ T.size + 1 ∧
      (∀ n, calls ≤ n →
        (Resolver.chase (counted (Resolver.flatExpand? T)) n [] t).run 0 = .ok (r, calls)) ∧
      (∀ n, T.size ≤ n → (Resolver.flat T n).resolve t = .ok r) ∧
      Rests T r := by
  obtain ⟨calls, r, hcalls, hrests, hrun⟩ := counted_chase_start hT ht
  refine ⟨calls, r, hcalls, hrun, fun n hn => ?_, hrests⟩
  exact chase_of_counted (hrun (n + 1) (by omega))

/-- `A` is a pointer to `B`, and `B` is `A`. -/
def growingCycle : Table CType :=
  .ofList [("A".toList, "p.B".toList), ("B".toList, "A".toList)]

theorem growing_cycle_rests : ∃ calls r, calls ≤ 3 ∧
    (Resolver.flat growingCycle 2).resolve "q(const).A".toList = .ok r ∧ Rests growingCycle r := by
  have hall : ∀ e ∈ growingCycle.entries, Balanced e.2 ∧ e.2 ≠ [] := by decide
  have hT : IsFlatTable growingCycle := fun hget => hall _ (Table.mem_entries_of_get? hget)
  obtain ⟨calls, r, hcalls, -, hr, hrests⟩ :=
    flat_resolve_rests growingCycle hT "q(const).A".toList (by decide)
  exact ⟨calls, r, hcalls, hr 2 (by decide), hrests⟩

end Flat

end CType

end BindingTypes
