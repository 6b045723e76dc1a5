import BindingTypes.Proofs.Scope.Unfolding
import BindingTypes.Proofs.Scope.Memory
import Mathlib.Data.List.Induction

namespace BindingTypes.ScopeGraph

open CType

variable {v : Vocabulary} {g : ScopeGraph} {cs : List Constructor} {b : Text}
  {resolve : CType → Except Fault CType}

theorem expandStep_of_split {t front base : CType} {found : Step}
    (hs : split t = .ok (front, base))
    (hb : ∀ expand, g.expandBase resolve base expand = .ok found) :
    g.expandStep resolve t =
      match found.type with
      | some expanded => .ok { found with type := some (front ++ expanded) }
      | none =>
        if front ≠ [] then
          if front.has "f(".toList || front.has "m(".toList then
            (g.expandStep resolve front).map fun inFront =>
              { found with type := inFront.type.map (· ++ base) }
          else .ok found
        else .ok found := by
  rw [expandStep]
  show (liftM (splitWithin t) >>= _ : Except Fault Step) = _
  rw [splitWithin_of_split hs]
  show (g.expandBase resolve base _ >>= _ : Except Fault Step) = _
  rw [hb]
  obtain ⟨type, scope⟩ := found
  cases type with
  | some expanded => rfl
  | none =>
    show (if _hf : front ≠ [] then _ else _ : Except Fault Step) = _
    by_cases hf : front ≠ []
    · rw [dif_pos hf]
      simp only [if_pos hf]
      split
      · cases g.expandStep resolve front <;> rfl
      · rfl
    · rw [dif_neg hf]
      simp only [if_neg hf]
      rfl

namespace WellFormed

variable (hg : WellFormed v g)
include hg

/-- No constructor of an object type expands. -/
theorem expandBase_text {c : Constructor} (hc : c.IsPlain)
    (expand : { p : CType // p.length < c.text.length } → Except Fault (Option CType)) :
    g.expandBase resolve c.text expand = .ok {} := by
  by_cases hs : isSimple c.text = true
  · obtain ⟨d, rfl⟩ := eq_array_of_isSimple hc hs
    obtain ⟨ht, hcut⟩ := hc.2 hs
    rw [expandBase_simple hs (after?_text _)]
    refine expandName_unknown (lookupName_unknown ?_ ?_ hcut) ht
    · exact hg.get?_eq_none Vocabulary.not_isName_text g.current
    · exact hg.lookup_eq_none Vocabulary.not_isName_text g.current
  · unfold expandBase
    rw [if_neg hs, (nameless_text hc).1, (nameless_text hc).2]
    rfl

theorem expandStep_front (resolve : CType → Except Fault CType) (hcs : ∀ c ∈ cs, c.IsPlain) (hne : cs ≠ []) :
    ∃ s, g.expandStep resolve (chain cs []) = .ok s ∧ s.type = none := by
  induction cs using List.reverseRecOn with
  | nil => exact absurd rfl hne
  | append_singleton cs c ih =>
    have hfront : ∀ d ∈ cs, d.IsPlain := fun d hd => hcs d (List.mem_append_left _ hd)
    have hc : c.IsPlain := hcs c (List.mem_append_right _ List.mem_cons_self)
    rw [expandStep_of_split (split_front hfront hc) (hg.expandBase_text hc)]
    simp only
    split
    · rename_i hf
      have hcs' : cs ≠ [] := by
        rintro rfl
        exact hf rfl
      obtain ⟨s, hs, htype⟩ := ih hfront hcs'
      split
      · rw [hs]
        refine ⟨_, rfl, ?_⟩
        show s.type.map _ = none
        rw [htype]
        rfl
      · exact ⟨_, rfl, rfl⟩
    · exact ⟨_, rfl, rfl⟩

/-- The constructors in front of a name stay in front of its expansion. -/
theorem expandStep_chain {found : Step} (hcs : ∀ c ∈ cs, c.IsPlain) (hb : Unbracketed b)
    (hne : b ≠ []) (hc : b.after? "::".toList = none)
    (hfound : ∀ expand, g.expandName resolve g.current b expand = .ok found) :
    (·.type) <$> g.expandStep resolve (chain cs b) =
      .ok (found.type.map fun expanded => chain cs expanded) := by
  have hbase : ∀ expand, g.expandBase resolve b expand = .ok found := by
    intro expand
    rw [expandBase_simple (isSimple_unbracketed hb) hc, hfound]
  rw [expandStep_of_split (split_chain hcs hb hne) hbase]
  obtain ⟨type, scope⟩ := found
  cases type with
  | some expanded =>
    show Except.ok (some (chain cs [] ++ expanded)) = Except.ok (some (chain cs expanded))
    simp [chain]
  | none =>
    simp only
    split
    · rename_i hf
      have hcs' : cs ≠ [] := by
        rintro rfl
        exact hf rfl
      split
      · obtain ⟨s, hs, htype⟩ := hg.expandStep_front resolve hcs hcs'
        rw [hs]
        show Except.ok (s.type.map _) = _
        rw [htype]
        rfl
      · rfl
    · rfl

end WellFormed

/-- One expansion of a type, whatever the budget and whatever template names resolve to. -/
def Unfolds (g : ScopeGraph) (t : CType) (r : Option CType) : Prop :=
  ∀ (budget : Nat) (resolve : CType → Except Fault CType),
    (·.type) <$> (g.withBudget budget).expandStep resolve t = .ok r

/-- Expansions that end, none of which comes back to a base that stood there before. -/
inductive Course (g : ScopeGraph) : List Text → CType → CType → Prop
  | rest {past : List Text} {t : CType} (h : g.Unfolds t none) : Course g past t t
  | step {past : List Text} {t next u : CType} {o o' : Outline} (h : g.Unfolds t (some next))
      (ho : outline t = .ok o) (ho' : outline next = .ok o')
      (hfresh : o'.base.text ∉ o.base.text :: past)
      (hu : Course g (o.base.text :: past) next u) : Course g past t u

/-- The seen outlines are those of types with past bases. -/
def SeenAmong (past : List Text) (seen : List Outline) : Prop :=
  ∀ o ∈ seen, o.base.text ∈ past ∧ ∃ t, outline t = .ok o

theorem SeenAmong.cons {past : List Text} {seen : List Outline} {t : CType} {o : Outline}
    (h : SeenAmong past seen) (ho : outline t = .ok o) :
    SeenAmong (o.base.text :: past) (o :: seen) := by
  intro o' hm
  rcases List.mem_cons.mp hm with rfl | hm
  · exact ⟨List.mem_cons_self, t, ho⟩
  · obtain ⟨hp, ht⟩ := h o' hm
    exact ⟨List.mem_cons_of_mem _ hp, ht⟩

/-- A type with a new base neither wraps nor repeats an earlier one. -/
theorem SeenAmong.fresh {past : List Text} {seen : List Outline} {t : CType} {o : Outline}
    (h : SeenAmong past seen) (ho : outline t = .ok o) (hfresh : o.base.text ∉ past) :
    seen.any o.wraps = false ∧ (seen.any fun earlier => earlier.whole.same o.whole) = false := by
  have hbase : ∀ e ∈ seen, o.base.text ≠ e.base.text := fun e he hb => hfresh (hb ▸ (h e he).1)
  constructor
  · refine List.any_eq_false.mpr fun e he hw => hbase e he ?_
    have hsame := (Bool.and_eq_true_iff.mp hw).2
    exact MeasuredText.same_iff.mp hsame
  · refine List.any_eq_false.mpr fun e he hw => hbase e he ?_
    obtain ⟨u, hu⟩ := (h e he).2
    exact (base_of_outline hu ho hw).symm

theorem Course.chase {past : List Text} {t u : CType} (h : Course g past t u) :
    ∃ k, ∀ n, k ≤ n → ∀ (budget : Nat) (resolve : CType → Except Fault CType)
      (seen : List Outline), SeenAmong past seen →
        Resolver.chase (fun t => (·.type) <$> (g.withBudget budget).expandStep resolve t) n seen t =
          .ok u := by
  induction h with
  | rest h =>
    refine ⟨1, fun n hn budget resolve seen _ => ?_⟩
    obtain ⟨n, rfl⟩ : ∃ m, n = m + 1 := ⟨n - 1, by omega⟩
    rw [Resolver.chase, h budget resolve]
    rfl
  | @step past t next u o o' h ho ho' hfresh _ ih =>
    obtain ⟨k, hk⟩ := ih
    refine ⟨k + 1, fun n hn budget resolve seen hseen => ?_⟩
    obtain ⟨n, rfl⟩ : ∃ m, n = m + 1 := ⟨n - 1, by omega⟩
    have hseen' := hseen.cons ho
    obtain ⟨hwraps, hsame⟩ := hseen'.fresh ho' hfresh
    rw [Resolver.chase, h budget resolve]
    show (liftM (outline next) >>= _ : Except Fault CType) = _
    rw [ho']
    show (liftM (outline t) >>= _ : Except Fault CType) = _
    rw [ho]
    show (if (o :: seen).any o'.wraps = true then _ else _ : Except Fault CType) = _
    rw [hwraps, hsame]
    exact hk n (by omega) budget resolve (o :: seen) hseen'

theorem Course.resolves {t u : CType} (h : Course g [] t u) : g.Resolves t (.ok u) := by
  obtain ⟨k, hk⟩ := h.chase
  refine ⟨k + 1, fun n hn => ?_⟩
  obtain ⟨n, rfl⟩ : ∃ m, n = m + 1 := ⟨n - 1, by omega⟩
  exact hk (n + 1 + 1) (by omega) (n + 1) _ [] fun o ho => absurd ho List.not_mem_nil

end BindingTypes.ScopeGraph
