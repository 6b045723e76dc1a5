import BindingTypes.Proofs.Scope.Meaning
import BindingTypes.Proofs.Scope.Congruence
import BindingTypes.Proofs.Scope.Trail

namespace BindingTypes

/-- A name, perhaps with separators inside or in front. -/
def IsPathText (t : Text) : Prop := ∀ c ∈ t, isIdentChar c = true ∨ c = ':'

instance (t : Text) : Decidable (IsPathText t) :=
  decidable_of_iff ((t.all fun c => isIdentChar c || c = ':') = true) (by simp [IsPathText])

namespace IsPathText

variable {t : Text}

theorem unbracketed (h : IsPathText t) : CType.Unbracketed t :=
  unbracketed_of_letters (by decide) h

theorem after?_enum (h : IsPathText t) : t.after? "enum ".toList = none := by
  cases ha : t.after? "enum ".toList with
  | none => rfl
  | some r =>
    have ht := Text.after?_eq_some_iff.mp ha
    have hblank := h ' ' (by rw [ht]; simp)
    rcases hblank with h | h <;> cases h

theorem scope {scope last : Text} (h : IsPathText t)
    (hcut : QualifiedName.cutLast? 0 t = some (scope, last)) :
    IsPathText scope := by
  intro c hc
  refine h c ?_
  rw [QualifiedName.append_of_cutLast? hcut]
  exact List.mem_append_left _ hc

end IsPathText

namespace ScopeGraph

open CType

variable {g : ScopeGraph} {t u c : CType} {n : Text}

/-- A name without brackets as it is qualified in the current scope: by the scope that declares it,
by its own scope, or by a scope around the current one. A leading separator is dropped. -/
def spelled (g : ScopeGraph) (t : Text) : Text :=
  if t = [] then []
  else
    let full :=
      match g.lookup g.current t, _h : QualifiedName.cutLast? 0 t with
      | some (_, id), _ => g.nameIn id t
      | none, some (scope, last) => g.spelled scope ++ "::".toList ++ last
      | none, none => g.qualifyScopeName t
    (Text.after? full "::".toList).getD full
termination_by t.length
decreasing_by exact QualifiedName.length_lt_of_cutLast? _h

/-- The name before a leading separator is dropped. -/
def fullName (g : ScopeGraph) (t : Text) : Text :=
  match g.lookup g.current t, QualifiedName.cutLast? 0 t with
  | some (_, id), _ => g.nameIn id t
  | none, some (scope, last) => g.spelled scope ++ "::".toList ++ last
  | none, none => g.qualifyScopeName t

theorem spelled_eq (ht : t ≠ []) :
    g.spelled t = (Text.after? (g.fullName t) "::".toList).getD (g.fullName t) := by
  have hfull : (match g.lookup g.current t, _h : QualifiedName.cutLast? 0 t with
      | some (_, id), _ => g.nameIn id t
      | none, some (scope, last) => g.spelled scope ++ "::".toList ++ last
      | none, none => g.qualifyScopeName t) = g.fullName t := by
    unfold fullName
    cases g.lookup g.current t <;> cases QualifiedName.cutLast? 0 t <;> rfl
  rw [spelled, if_neg ht]
  simp only [hfull]

theorem qualifyElement_of_plain {reuse : Reuse (Except Fault)} {t t' : Text}
    {again : { p : CType // p.length < t.length } → Except Fault CType} (ht : IsPathText t)
    (hp : g.qualifyPlain t again = .ok t') :
    g.qualifyElement reuse t again = .ok ((Text.after? t' "::".toList).getD t') := by
  have hname : g.qualifyName reuse t again = .ok t' := by
    have hnone : ∀ {α : Type}, (liftM (.ok none : Except Fault (Option α)) :
        Except Fault (Option α)) = pure none := rfl
    unfold qualifyName
    rw [templateWithin_of_isTemplate (isTemplate_unbracketed ht.unbracketed), hnone, pure_bind]
    dsimp only
    split
    · rename_i r hr
      rw [ht.after?_enum] at hr
      cases hr
    · exact hp
  unfold qualifyElement
  rw [if_pos (isSimple_unbracketed ht.unbracketed), hname]
  rfl

/-- No budget is needed to qualify a name without brackets. -/
theorem qualifyVia_spelled (ht : IsPathText t) :
    g.qualifyVia .never t = (.ok (g.spelled t) : Except Fault CType) := by
  induction hk : t.length using Nat.strongRecOn generalizing t with
  | ind k ih =>
    by_cases hnil : t = []
    · subst hnil
      have hall : ∀ e (_ : e.length ≤ ([] : CType).length), e ∈ ([] : List Text) →
          g.qualifyElement .never e (fun p => g.qualifyVia .never p.1) =
            (.ok e : Except Fault Text) := fun e _ he => absurd he List.not_mem_nil
      rw [qualifyVia, Reuse.never_qualified, concatMap_of_elements elements_nil hall, spelled,
        if_pos rfl]
      rfl
    · have hplain : g.qualifyPlain t (fun p => g.qualifyVia .never p.1) =
          (.ok (g.fullName t) : Except Fault Text) := by
        unfold qualifyPlain fullName
        cases g.lookup g.current t with
        | some hit => rfl
        | none =>
          dsimp only
          split
          · rename_i scope last hcut
            have hlt : scope.length < k := hk ▸ QualifiedName.length_lt_of_cutLast? hcut
            rw [ih _ hlt (ht.scope hcut) rfl, hcut]
            rfl
          · rename_i hcut
            rw [hcut]
            rfl
      have hall : ∀ e (_ : e.length ≤ t.length), e ∈ [t] →
          g.qualifyElement .never e (fun p => g.qualifyVia .never p.1) =
            (.ok (g.spelled t) : Except Fault Text) := by
        intro e _ he
        cases List.mem_singleton.mp he
        rw [qualifyElement_of_plain ht hplain, spelled_eq hnil]
      rw [qualifyVia, Reuse.never_qualified,
        concatMap_of_elements (elements_unbracketed ht.unbracketed hnil) hall]
      simp

theorem qualifies_spelled (ht : IsPathText t) : g.Qualifies t (.ok (g.spelled t)) := by
  have hrun : (g.withBudget g.budget).qualifyVia .never t =
      (.ok (g.spelled t) : Except Fault CType) := qualifyVia_spelled ht
  exact qualifies_of_run hrun (by simp)

theorem qualify_eq_spelled (ht : IsPathText t) : g.qualify t = .ok (g.spelled t) := by
  have hreach := reaches_qualifyVia (g := g) t {} (Memory.RightFor.empty g)
  rw [qualifyVia_spelled ht] at hreach
  obtain ⟨s, hrun, -⟩ := hreach
  rw [qualify, Remembering.afresh, hrun]
  rfl

end ScopeGraph

end BindingTypes
