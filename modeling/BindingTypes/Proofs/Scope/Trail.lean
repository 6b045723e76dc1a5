import BindingTypes.Proofs.Scope.Memory
import BindingTypes.Proofs.Scope.Elementwise
import Mathlib.Data.List.Chain
import Mathlib.Logic.Relation

namespace BindingTypes

namespace CType

variable {t u next : CType} {o o' : Outline} {ts : List CType} {seen : List Outline}

/-- The outlines of the types, in order. -/
abbrev Outlined (ts : List CType) (seen : List Outline) : Prop :=
  List.Forall₂ (fun t o => outline t = .ok o) ts seen

theorem outline_whole (h : outline t = .ok o) : o.whole.text = t := by
  obtain ⟨es, -, rfl⟩ := map_eq_ok h
  rfl

theorem wraps_of_outline (ho : outline t = .ok o) (ho' : outline u = .ok o') :
    CType.wraps t u = .ok (o.wraps o') := by
  unfold CType.wraps
  rw [ho, ho']
  rfl

theorem outlines_of_wraps {b : Bool} (h : CType.wraps t u = .ok b) :
    ∃ o o', outline t = .ok o ∧ outline u = .ok o' ∧ o.wraps o' = b := by
  unfold CType.wraps at h
  obtain ⟨o, ho, h⟩ := bind_eq_ok h
  obtain ⟨o', ho', h⟩ := bind_eq_ok h
  exact ⟨o, o', ho, ho', Except.ok.inj h⟩

theorem wraps_self (h : outline t = .ok o) : CType.wraps t t = .ok false := by
  rw [wraps_of_outline h h]
  simp [Outline.wraps]

namespace Outlined

theorem any_wraps (hseen : Outlined ts seen) (ho : outline next = .ok o) :
    seen.any o.wraps = true ↔ ∃ s ∈ ts, CType.wraps next s = .ok true := by
  induction hseen with
  | nil => simp
  | cons hs _ ih => simp [ih, wraps_of_outline ho hs]

theorem wraps_eq_false (hseen : Outlined ts seen) (ho : outline next = .ok o)
    (h : seen.any o.wraps = false) : ∀ s ∈ ts, CType.wraps next s = .ok false := by
  induction hseen with
  | nil => exact fun s hs => absurd hs List.not_mem_nil
  | cons hs _ ih =>
    rw [List.any_cons, Bool.or_eq_false_iff] at h
    rw [List.forall_mem_cons, wraps_of_outline ho hs, h.1]
    exact ⟨rfl, ih h.2⟩

theorem any_same (hseen : Outlined ts seen) (ho : outline next = .ok o) :
    (seen.any fun earlier => earlier.whole.same o.whole) = true ↔ next ∈ ts := by
  induction hseen with
  | nil => simp
  | cons hs _ ih =>
    rw [List.any_cons, Bool.or_eq_true, ih, List.mem_cons, MeasuredText.same_iff,
      outline_whole hs, outline_whole ho, eq_comm]

end Outlined

end CType

namespace ScopeGraph

open CType Relation

/-- The outcome of one expansion with nothing remembered, from some budget on. -/
def Expansion (g : ScopeGraph) (t : CType) : Except Fault (Option CType) → Prop :=
  Settles fun n => (·.type) <$> (g.withBudget n).expansionVia .never t

/-- One expansion of `t` gives `u`. -/
abbrev Becomes (g : ScopeGraph) (t u : CType) : Prop := g.Expansion t (.ok (some u))

/-- Types that come one after the other in an expansion, the newest first. None comes back, and
none wraps an earlier one. -/
structure Trail (g : ScopeGraph) (l : List CType) : Prop where
  steps : l.IsChain fun newer older => g.Becomes older newer
  fresh : l.Pairwise fun newer older => CType.wraps newer older = .ok false ∧ newer ≠ older

/-- Why the expansion is not carried on behind a trail, and the type it is left with. -/
inductive Stops (g : ScopeGraph) : List CType → CType → Prop
  | spent {t : CType} {ts : List CType} (h : g.Expansion t (.ok none)) : Stops g (t :: ts) t
  | wrapped {t next s : CType} {ts : List CType} (h : g.Becomes t next) (hs : s ∈ t :: ts)
      (hw : CType.wraps next s = .ok true) : Stops g (t :: ts) t
  | repeated {t next : CType} {ts : List CType} (h : g.Becomes t next) (hs : next ∈ t :: ts)
      (hw : ∀ s ∈ t :: ts, CType.wraps next s = .ok false) : Stops g (t :: ts) next

variable {g : ScopeGraph} {t u v next : CType} {l ts : List CType} {seen : List Outline}
  {r r' : Except Fault (Option CType)}

theorem expandType_refines (g : ScopeGraph) {n k d e : Nat} (hn : n ≤ k) (hd : d ≤ e)
    (t : CType) :
    Refines ((g.withBudget n).expandType ((g.withBudget n).resolveTo .never d) t)
      ((g.withBudget k).expandType ((g.withBudget k).resolveTo .never e) t) := by
  have hr : ∀ u, largerBudget.related ((g.withBudget n).resolveTo .never d u)
      fun _ => (g.withBudget k).resolveTo .never e u := fun u => g.resolveTo_refines hn hd u
  exact largerBudget.map (·.type)
    (largerBudget.expandStep (fun _ => g.withBudget_alike n k) hr t)

theorem expansion_of_expandType {k m : Nat}
    (h : (g.withBudget k).expandType ((g.withBudget k).resolveTo .never m) t = r)
    (hr : r ≠ .error .exhausted) : g.Expansion t r := by
  refine ⟨max k m, fun n hn => ?_⟩
  have hle := g.expandType_refines (n := k) (k := n) (d := m) (e := n) (by omega) (by omega) t
  exact (hle.eq_of_ne (h ▸ hr)).trans h

namespace Expansion

theorem unique (h : g.Expansion t r) (h' : g.Expansion t r') : r = r' := Settles.unique h h'

theorem expandType (h : g.Expansion t r) (hr : r ≠ .error .exhausted) :
    ∃ n, ∀ k m, n ≤ k → n ≤ m →
      (g.withBudget k).expandType ((g.withBudget k).resolveTo .never m) t = r := by
  obtain ⟨n, hn⟩ := h
  refine ⟨n, fun k m hk hm => ?_⟩
  have hnn : (g.withBudget n).expandType ((g.withBudget n).resolveTo .never n) t = r :=
    hn n (Nat.le_refl n)
  have hle := g.expandType_refines hk hm t
  exact (hle.eq_of_ne (hnn ▸ hr)).trans hnn

end Expansion

theorem Becomes.unique (h : g.Becomes t u) (h' : g.Becomes t v) : u = v := by
  have heq := Expansion.unique h h'
  exact Option.some.inj (Except.ok.inj heq)

theorem Becomes.not_spent (h : g.Becomes t u) : ¬ g.Expansion t (.ok none) := by
  intro hnone
  have heq := Expansion.unique h hnone
  cases heq

namespace Trail

theorem single (g : ScopeGraph) (t : CType) : g.Trail [t] :=
  ⟨List.isChain_singleton t, List.pairwise_singleton _ t⟩

theorem cons (hl : g.Trail (t :: ts)) (h : g.Becomes t next)
    (hw : ∀ s ∈ t :: ts, CType.wraps next s = .ok false) (hnew : next ∉ t :: ts) :
    g.Trail (next :: t :: ts) where
  steps := List.isChain_cons_cons.mpr ⟨h, hl.steps⟩
  fresh := List.pairwise_cons.mpr
    ⟨fun s hs => ⟨hw s hs, fun heq => hnew (heq ▸ hs)⟩, hl.fresh⟩

theorem right {l' : List CType} (h : g.Trail (l ++ l')) : g.Trail l' where
  steps := h.steps.right_of_append
  fresh := (List.pairwise_append.mp h.fresh).2.1

theorem left {l' : List CType} (h : g.Trail (l ++ l')) : g.Trail l where
  steps := h.steps.left_of_append
  fresh := (List.pairwise_append.mp h.fresh).1

/-- The newest of two types or more has an outline, as the others do. -/
theorem outline_head (h : g.Trail (next :: t :: ts)) : ∃ o, outline next = .ok o := by
  have hw := (List.pairwise_cons.mp h.fresh).1 t List.mem_cons_self
  obtain ⟨o, -, ho, -, -⟩ := outlines_of_wraps hw.1
  exact ⟨o, ho⟩

theorem outline_second (h : g.Trail (next :: t :: ts)) : ∃ o, outline t = .ok o := by
  have hw := (List.pairwise_cons.mp h.fresh).1 t List.mem_cons_self
  obtain ⟨-, o, -, ho, -⟩ := outlines_of_wraps hw.1
  exact ⟨o, ho⟩

/-- Behind the type that stops a trail by a step that wraps something stands a type with an
outline. -/
theorem outline_of_wraps {s : CType} (h : g.Trail (t :: ts)) (hs : s ∈ t :: ts)
    (hw : CType.wraps next s = .ok true) : ∃ o, outline t = .ok o := by
  cases ts with
  | nil =>
    cases List.mem_singleton.mp hs
    obtain ⟨-, o, -, ho, -⟩ := outlines_of_wraps hw
    exact ⟨o, ho⟩
  | cons s' ts => exact h.outline_head

theorem reaches_head {s : CType} (h : g.Trail (t :: ts)) (hs : s ∈ t :: ts) :
    ReflTransGen g.Becomes s t := by
  induction ts generalizing t with
  | nil =>
    rw [List.mem_singleton.mp hs]
  | cons t' ts ih =>
    rcases List.mem_cons.mp hs with rfl | hs
    · exact .refl
    · have hstep : g.Becomes t' t := (List.isChain_cons_cons.mp h.steps).1
      have htail : g.Trail (t' :: ts) := h.right (l := [t])
      exact (ih htail hs).tail hstep

theorem mem_next (h : g.Trail (t :: ts)) (hu : u ∈ t :: ts) (hstep : g.Becomes u v) :
    v ∈ t :: ts ∨ u = t := by
  obtain ⟨a, c, hsplit⟩ := List.append_of_mem hu
  rcases List.eq_nil_or_concat a with rfl | ⟨a, z, rfl⟩
  · exact Or.inr (List.cons.inj hsplit).1.symm
  · have hchain := h.steps
    rw [hsplit, List.concat_eq_append, List.append_assoc] at hchain
    have hnext : g.Becomes u z := (List.isChain_cons_cons.mp hchain.right_of_append).1
    rw [hstep.unique hnext, hsplit]
    exact Or.inl (by simp)

/-- What comes after a type of a trail is in the trail, or it comes after the newest type. -/
theorem mem_or_behind (h : g.Trail (t :: ts)) (hu : u ∈ t :: ts)
    (huv : ReflTransGen g.Becomes u v) :
    v ∈ t :: ts ∨ ∃ w, g.Becomes t w ∧ ReflTransGen g.Becomes w v := by
  induction huv with
  | refl => exact Or.inl hu
  | @tail x y _ hstep ih =>
    rcases ih with hx | ⟨w, hw, hx⟩
    · rcases h.mem_next hx hstep with hy | rfl
      · exact Or.inl hy
      · exact Or.inr ⟨y, hstep, .refl⟩
    · exact Or.inr ⟨w, hw, hx.tail hstep⟩

/-- Where the newest type leads back into a trail, all that comes after is in it. -/
theorem mem_of_closed (h : g.Trail (t :: ts)) (hback : ∀ w, g.Becomes t w → w ∈ t :: ts)
    (hu : u ∈ t :: ts) (huv : ReflTransGen g.Becomes u v) : v ∈ t :: ts := by
  induction huv with
  | refl => exact hu
  | @tail x y _ hstep ih =>
    rcases h.mem_next ih hstep with hy | rfl
    · exact hy
    · exact hback y hstep

theorem ordered (h : g.Trail l) : l.Pairwise fun newer older => ReflTransGen g.Becomes older newer := by
  induction l with
  | nil => exact .nil
  | cons t ts ih =>
    have htail : g.Trail ts := h.right (l := [t])
    exact .cons (fun s hs => h.reaches_head (List.mem_cons_of_mem t hs)) (ih htail)

/-- All types of a trail come after the oldest one. -/
theorem reached {s : CType} (h : g.Trail l) (hlast : l.getLast? = some t) (hs : s ∈ l) :
    ReflTransGen g.Becomes t s := by
  obtain ⟨a, c, rfl⟩ := List.append_of_mem hs
  have hmem : t ∈ s :: c := by
    rw [List.getLast?_append_cons] at hlast
    exact List.mem_of_getLast? hlast
  exact h.right.reaches_head hmem

theorem outlined {s : CType} (h : g.Trail (t :: ts)) (ht : ∃ o, outline t = .ok o)
    (hs : s ∈ t :: ts) : ∃ o, outline s = .ok o := by
  rcases List.mem_cons.mp hs with rfl | hs
  · exact ht
  · have hw := (List.pairwise_cons.mp h.fresh).1 s hs
    obtain ⟨-, o, -, ho, -⟩ := outlines_of_wraps hw.1
    exact ⟨o, ho⟩

/-- A trail goes on with the next step, or it stops before. -/
theorem stops_or_cons (h : g.Trail (t :: ts)) (hstep : g.Becomes t next)
    (ht : ∃ o, outline t = .ok o) (hnext : ∃ o, outline next = .ok o) :
    (∃ u, g.Stops (t :: ts) u) ∨ g.Trail (next :: t :: ts) := by
  by_cases hwraps : ∃ s ∈ t :: ts, CType.wraps next s = .ok true
  · obtain ⟨s, hs, hw⟩ := hwraps
    exact Or.inl ⟨t, .wrapped hstep hs hw⟩
  · have hw : ∀ s ∈ t :: ts, CType.wraps next s = .ok false := by
      intro s hs
      obtain ⟨o, ho⟩ := hnext
      obtain ⟨o', ho'⟩ := h.outlined ht hs
      have hvalue := wraps_of_outline ho ho'
      cases hcase : o.wraps o' with
      | false => rw [hvalue, hcase]
      | true =>
        rw [hcase] at hvalue
        exact absurd ⟨s, hs, hvalue⟩ hwraps
    by_cases hmem : next ∈ t :: ts
    · exact Or.inl ⟨next, .repeated hstep hmem hw⟩
    · exact Or.inr (h.cons hstep hw hmem)

end Trail

theorem chase_step {expand : CType → Except Fault (Option CType)} {o o' : Outline} (n : Nat)
    (h : expand t = .ok (some next)) (ho' : outline next = .ok o') (ho : outline t = .ok o) :
    Resolver.chase expand (n + 1) seen t =
      if (o :: seen).any o'.wraps then .ok t
      else if (o :: seen).any fun earlier => earlier.whole.same o'.whole then .ok next
      else Resolver.chase expand n (o :: seen) next := by
  rw [Resolver.chase, h]
  show (liftM (outline next) >>= _ : Except Fault CType) = _
  rw [ho']
  show (liftM (outline t) >>= _ : Except Fault CType) = _
  rw [ho]
  rfl

/-- What the loop leaves a type with is where a trail from it stops. -/
theorem trail_of_chase {k m n : Nat} (hl : g.Trail (t :: ts)) (hseen : Outlined ts seen)
    (h : Resolver.chase ((g.withBudget k).expandType ((g.withBudget k).resolveTo .never m)) n seen t
      = .ok u) :
    ∃ a, g.Trail (a ++ t :: ts) ∧ g.Stops (a ++ t :: ts) u := by
  induction n generalizing t ts seen with
  | zero => cases h
  | succ n ih =>
    unfold Resolver.chase at h
    obtain ⟨expanded, hexpanded, h⟩ := bind_eq_ok h
    have hstep : g.Expansion t (.ok expanded) := expansion_of_expandType hexpanded (by simp)
    cases expanded with
    | none =>
      cases h
      exact ⟨[], hl, .spent hstep⟩
    | some next =>
      obtain ⟨o', ho', h⟩ := bind_eq_ok h
      obtain ⟨o, ho, h⟩ := bind_eq_ok h
      have hseen' : Outlined (t :: ts) (o :: seen) := .cons ho hseen
      dsimp only at h
      split at h
      · rename_i hany
        cases h
        obtain ⟨s, hs, hw⟩ := (hseen'.any_wraps ho').mp hany
        exact ⟨[], hl, .wrapped hstep hs hw⟩
      · rename_i hany
        have hw := hseen'.wraps_eq_false ho' (Bool.not_eq_true _ ▸ hany)
        split at h
        · rename_i hsame
          cases h
          exact ⟨[], hl, .repeated hstep ((hseen'.any_same ho').mp hsame) hw⟩
        · rename_i hsame
          have hnew : next ∉ t :: ts := fun hm => hsame ((hseen'.any_same ho').mpr hm)
          obtain ⟨a, ha, hu⟩ := ih (hl.cons hstep hw hnew) hseen' h
          refine ⟨a ++ [next], ?_, ?_⟩
          · simpa using ha
          · simpa using hu

/-- At the end of a trail that stops the loop takes no further step. -/
theorem chase_of_stops (hl : g.Trail (t :: ts)) (hseen : Outlined ts seen)
    (hu : g.Stops (t :: ts) u) :
    ∃ n₀, ∀ n k m, n₀ < n → n₀ ≤ k → n₀ ≤ m →
      Resolver.chase ((g.withBudget k).expandType ((g.withBudget k).resolveTo .never m)) n seen t =
        .ok u := by
  have hstep : ∃ r, g.Expansion t (.ok r) := by
    cases hu with
    | spent h => exact ⟨_, h⟩
    | wrapped h _ _ => exact ⟨_, h⟩
    | repeated h _ _ => exact ⟨_, h⟩
  obtain ⟨r, hr⟩ := hstep
  obtain ⟨n₀, hn₀⟩ := hr.expandType (by simp)
  refine ⟨n₀, fun n k m hn hk hm => ?_⟩
  obtain ⟨n, rfl⟩ : ∃ j, n = j + 1 := ⟨n - 1, by omega⟩
  have hloop := hn₀ k m hk hm
  cases hu with
  | spent h =>
    cases Expansion.unique h hr
    unfold Resolver.chase
    rw [hloop]
    rfl
  | @wrapped _ next s _ h hs hw =>
    cases Expansion.unique h hr
    obtain ⟨o', -, ho', -, -⟩ := outlines_of_wraps hw
    obtain ⟨o, ho⟩ := Trail.outline_of_wraps hl hs hw
    have hseen' : Outlined (t :: ts) (o :: seen) := .cons ho hseen
    rw [chase_step n hloop ho' ho, if_pos ((hseen'.any_wraps ho').mpr ⟨s, hs, hw⟩)]
  | repeated h hs hw =>
    cases Expansion.unique h hr
    obtain ⟨o', o, ho', ho, -⟩ := outlines_of_wraps (hw t List.mem_cons_self)
    have hseen' : Outlined (t :: ts) (o :: seen) := .cons ho hseen
    have hany : ¬ (o :: seen).any o'.wraps = true := by
      intro hany
      obtain ⟨s, hs, hs'⟩ := (hseen'.any_wraps ho').mp hany
      cases (hw s hs).symm.trans hs'
    rw [chase_step n hloop ho' ho, if_neg hany, if_pos ((hseen'.any_same ho').mpr hs)]

/-- Along a trail that stops the loop takes every step and leaves what the trail leaves. -/
theorem chase_of_trail {a : List CType} (hl : g.Trail (a ++ t :: ts)) (hseen : Outlined ts seen)
    (hu : g.Stops (a ++ t :: ts) u) :
    ∃ n₀, ∀ n k m, n₀ < n → n₀ ≤ k → n₀ ≤ m →
      Resolver.chase ((g.withBudget k).expandType ((g.withBudget k).resolveTo .never m)) n seen t =
        .ok u := by
  induction a using List.reverseRecOn generalizing t ts seen with
  | nil => exact chase_of_stops hl hseen hu
  | append_singleton a x ih =>
    rw [List.append_assoc] at hl hu
    have hx : g.Trail (x :: t :: ts) := hl.right
    have hstep : g.Becomes t x := (List.isChain_cons_cons.mp hx.steps).1
    have hfresh := (List.pairwise_cons.mp hx.fresh).1
    obtain ⟨o', ho'⟩ := hx.outline_head
    obtain ⟨o, ho⟩ := hx.outline_second
    have hseen' : Outlined (t :: ts) (o :: seen) := .cons ho hseen
    obtain ⟨n₁, hn₁⟩ := ih hl hseen' hu
    obtain ⟨n₂, hn₂⟩ := hstep.expandType (by simp)
    refine ⟨max n₁ n₂ + 1, fun n k m hn hk hm => ?_⟩
    obtain ⟨n, rfl⟩ : ∃ j, n = j + 1 := ⟨n - 1, by omega⟩
    have hany : ¬ (o :: seen).any o'.wraps = true := by
      intro hany
      obtain ⟨s, hs, hw⟩ := (hseen'.any_wraps ho').mp hany
      cases (hfresh s hs).1.symm.trans hw
    have hsame : ¬ ((o :: seen).any fun earlier => earlier.whole.same o'.whole) = true := by
      intro hsame
      have hmem := (hseen'.any_same ho').mp hsame
      exact (hfresh x hmem).2 rfl
    rw [chase_step n (hn₂ k m (by omega) (by omega)) ho' ho, if_neg hany, if_neg hsame]
    exact hn₁ n k m (by omega) (by omega) (by omega)

/-- A type resolves to what a trail from it stops with. -/
theorem resolves_iff_trail :
    g.Resolves t (.ok u) ↔ ∃ l, g.Trail l ∧ l.getLast? = some t ∧ g.Stops l u := by
  constructor
  · rintro ⟨n, hn⟩
    have hloop := hn (n + 1) (Nat.le_succ n)
    change Resolver.chase ((g.withBudget (n + 1)).expandType
      ((g.withBudget (n + 1)).resolveTo .never n)) (n + 2) [] t = .ok u at hloop
    obtain ⟨a, hl, hu⟩ := trail_of_chase (Trail.single g t) .nil hloop
    exact ⟨a ++ [t], hl, by simp, hu⟩
  · rintro ⟨l, hl, hlast, hu⟩
    obtain ⟨a, rfl⟩ := List.getLast?_eq_some_iff.mp hlast
    obtain ⟨n₀, hn₀⟩ := chase_of_trail hl .nil hu
    refine ⟨n₀ + 1, fun n hn => ?_⟩
    obtain ⟨n, rfl⟩ : ∃ j, n = j + 1 := ⟨n - 1, by omega⟩
    exact hn₀ (n + 1 + 1) (n + 1) n (by omega) (by omega) (by omega)

theorem resolves_of_spent (h : g.Expansion u (.ok none)) : g.Resolves u (.ok u) :=
  resolves_iff_trail.mpr ⟨[u], Trail.single g u, rfl, .spent h⟩

theorem eq_of_spent (h : g.Expansion t (.ok none)) (hu : ReflTransGen g.Becomes t u) : u = t := by
  rcases hu.cases_head with rfl | ⟨v, hv, -⟩
  · rfl
  · exact absurd h hv.not_spent

/-- An older type that the next one neither is nor wraps stops nothing. -/
theorem stops_append_iff {old : CType}
    (hclear : ∀ v, g.Becomes t v → CType.wraps v old = .ok false ∧ v ≠ old) :
    g.Stops (t :: ts ++ [old]) u ↔ g.Stops (t :: ts) u := by
  have hmem : ∀ {s}, s ∈ t :: ts ++ [old] ↔ s ∈ t :: ts ∨ s = old := by
    intro s
    rw [List.mem_append, List.mem_singleton]
  constructor
  · intro h
    cases h with
    | spent h => exact .spent h
    | wrapped h hs hw =>
      rcases hmem.mp hs with hs | rfl
      · exact .wrapped h hs hw
      · cases (hclear _ h).1.symm.trans hw
    | repeated h hs hw =>
      rcases hmem.mp hs with hs | rfl
      · exact .repeated h hs fun s hs => hw s (hmem.mpr (Or.inl hs))
      · exact absurd rfl (hclear _ h).2
  · intro h
    cases h with
    | spent h => exact .spent h
    | wrapped h hs hw => exact .wrapped h (hmem.mpr (Or.inl hs)) hw
    | repeated h hs hw =>
      refine .repeated h (hmem.mpr (Or.inl hs)) fun s hs => ?_
      rcases hmem.mp hs with hs | rfl
      · exact hw s hs
      · exact (hclear _ h).1

/-- Where no type behind a step is the type before it or wraps that, the step can be left out. -/
theorem Becomes.resolves_iff (h : g.Becomes t next)
    (hclear : ∀ w, ReflTransGen g.Becomes next w → CType.wraps w t = .ok false ∧ w ≠ t) :
    g.Resolves t (.ok u) ↔ g.Resolves next (.ok u) := by
  have hstops : ∀ {x ts}, ReflTransGen g.Becomes next x →
      (g.Stops (x :: ts ++ [t]) u ↔ g.Stops (x :: ts) u) :=
    fun hx => stops_append_iff fun v hv => hclear v (hx.tail hv)
  rw [resolves_iff_trail, resolves_iff_trail]
  constructor
  · rintro ⟨l, hl, hlast, hu⟩
    obtain ⟨a, rfl⟩ := List.getLast?_eq_some_iff.mp hlast
    rcases List.eq_nil_or_concat a with rfl | ⟨b, z, rfl⟩
    · exfalso
      cases hu with
      | spent hnone => exact h.not_spent hnone
      | wrapped h' hs hw =>
        cases h.unique h'
        cases List.mem_singleton.mp hs
        cases (hclear _ .refl).1.symm.trans hw
      | repeated h' hs _ =>
        cases h.unique h'
        exact (hclear _ .refl).2 (List.mem_singleton.mp hs)
    · rw [List.concat_eq_append] at hl hu
      have hz : next = z := by
        have hchain := hl.steps
        rw [List.append_assoc] at hchain
        exact h.unique (List.isChain_cons_cons.mp hchain.right_of_append).1
      subst hz
      refine ⟨b ++ [next], hl.left, List.getLast?_concat, ?_⟩
      cases b with
      | nil => exact (hstops .refl).mp hu
      | cons x b => exact (hstops (hl.left.reached List.getLast?_concat List.mem_cons_self)).mp hu
  · rintro ⟨l, hl, hlast, hu⟩
    have hl' : g.Trail (l ++ [t]) := by
      refine ⟨?_, List.pairwise_append.mpr ⟨hl.fresh, List.pairwise_singleton _ t, ?_⟩⟩
      · obtain ⟨a, rfl⟩ := List.getLast?_eq_some_iff.mp hlast
        rw [List.append_assoc]
        exact List.isChain_append.mpr ⟨hl.steps.left_of_append,
          List.isChain_cons_cons.mpr ⟨h, List.isChain_singleton t⟩, fun x hx y hy => by
            cases hy
            exact (List.isChain_append.mp hl.steps).2.2 x hx _ rfl⟩
      · intro s hs s' hs'
        cases List.mem_singleton.mp hs'
        exact hclear s (hl.reached hlast hs)
    refine ⟨l ++ [t], hl', List.getLast?_concat, ?_⟩
    cases l with
    | nil => cases hlast
    | cons x l => exact (hstops (hl.reached hlast List.mem_cons_self)).mpr hu

end ScopeGraph

end BindingTypes
