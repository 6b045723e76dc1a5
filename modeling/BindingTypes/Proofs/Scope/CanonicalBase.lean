import BindingTypes.Proofs.CType.Marks
import BindingTypes.Proofs.Scope.Idempotence
import BindingTypes.Proofs.Scope.Spelled

namespace BindingTypes

namespace CType

variable {t c k : CType}

theorem scan_pointer (t : CType) :
    scan (chain [.pointer] t) = ("p.".toList :: (scan t).1, (scan t).2) :=
  scan_of_next (next_constructor (c := .pointer) trivial t) (by simp [chain, Constructor.text])

theorem plain_pointer : ∀ c ∈ [Constructor.pointer], c.IsPlain := by
  intro c hc
  cases List.mem_singleton.mp hc
  exact trivial

theorem elements_pointer (t : CType) :
    elements (chain [.pointer] t) = (elements t).map ("p.".toList :: ·) :=
  elements_chain plain_pointer t

/-- A pointer goes to a type with the same base, unless there is none. -/
theorem base_pointer (hk : k ≠ [])
    (h : (stripQualifiers t >>= base) = .ok k) :
    (stripQualifiers (chain [.pointer] t) >>= base) = .ok k := by
  obtain ⟨bare, hbare, hbase⟩ := bind_eq_ok h
  obtain ⟨es, hes, rfl⟩ := map_eq_ok hbare
  obtain ⟨⟨front, last⟩, hsplit, rfl⟩ := map_eq_ok hbase
  obtain ⟨bs, hbs, hlast⟩ := map_eq_ok hsplit
  have hlast : bs.getLastD [] = last := congrArg Prod.snd hlast
  have hstrip : stripQualifiers (chain [.pointer] t) = .ok (chain [.pointer]
      ((es.filter fun e => Kind.of e ≠ .qualifier).flatten)) := by
    have hkind : decide (Kind.of "p.".toList ≠ .qualifier) = true := by decide
    rw [stripQualifiers, elements_pointer, hes]
    simp only [Except.map, List.filter_cons, hkind, if_true, List.flatten_cons]
    simp [chain, Constructor.text]
  rw [hstrip]
  show (split (chain [.pointer] _)).map (·.2) = _
  rw [split, elements_pointer, hbs]
  cases bs with
  | nil => exact absurd hlast.symm hk
  | cons b bs =>
    show Except.ok (("p.".toList :: b :: bs).getLastD []) = _
    rw [← hlast]
    simp

end CType

namespace ScopeGraph

open CType

variable {g : ScopeGraph} {t u c : CType} {n k : Text} {budget : Nat}

theorem means_of_canonical (h : (g.withBudget budget).canonical t = .ok c) : g.Means t c := by
  obtain ⟨k, hk⟩ := ((sameOutcomes_canonicalVia g t) (.ok c) budget (by simp)).1 h
  obtain ⟨u, hu, hc⟩ := bind_eq_ok (hk k (Nat.le_refl k))
  have hsettled := settles_of_refines (y := fun n => (g.withBudget n).resolveVia .never t)
    (fun n k h => g.resolveVia_refines h t) (n := k) (by simp [hu])
  exact means_of_resolves (hu ▸ hsettled) (qualifies_of_run hc (by simp))

theorem Means.unique {c' : CType} (h : g.Means t c) (h' : g.Means t c') : c = c' := by
  obtain ⟨n, hn⟩ := h.reached
  exact h'.only n c (hn n (Nat.le_refl n))

theorem qualifyVia_pointer (t : CType) : g.qualifyVia .never (chain [.pointer] t) =
    (g.qualifyVia .never t : Except Fault CType).map (chain [.pointer]) := by
  let qualified : Text → Except Fault Text :=
    fun e => g.qualifyElement .never e fun p => g.qualifyVia .never p.1
  have hpointer : qualified "p.".toList = .ok "p.".toList := rfl
  have heq : ∀ t, g.qualifyVia .never t = concatMap t fun e => qualified e.1 := by
    intro t
    rw [qualifyVia, Reuse.never_qualified]
  rw [heq, heq, concatMap_eq (h := qualified) fun _ => rfl,
    concatMap_eq (h := qualified) fun _ => rfl, scan_pointer, List.mapM_cons, hpointer]
  cases (scan t).1.mapM qualified with
  | error f => rfl
  | ok texts => cases (scan t).2 <;> rfl

theorem qualifies_pointer (h : g.Qualifies u (.ok c)) :
    g.Qualifies (chain [.pointer] u) (.ok (chain [.pointer] c)) := by
  obtain ⟨n, hn⟩ := h
  refine ⟨n, fun k hk => ?_⟩
  have hu : (g.withBudget k).qualifyVia .never u = (.ok c : Except Fault CType) := hn k hk
  show (g.withBudget k).qualifyVia .never (chain [.pointer] u) = _
  rw [qualifyVia_pointer, hu]
  rfl

/-- The base of the canonical form of `t`, qualifiers apart. -/
def CanonicalBase (g : ScopeGraph) (t : CType) (b : Text) : Prop :=
  ∃ c, g.Means t c ∧ (stripQualifiers c >>= base) = .ok b

theorem CanonicalBase.unique {b b' : Text} (h : g.CanonicalBase t b) (h' : g.CanonicalBase t b') :
    b = b' := by
  obtain ⟨c, hc, hb⟩ := h
  obtain ⟨c', hc', hb'⟩ := h'
  cases hc.unique hc'
  exact Except.ok.inj (hb.symm.trans hb')

/-- A text without brackets is its own base. -/
theorem base_unbracketed (hn : Unbracketed n) (hne : n ≠ []) :
    (stripQualifiers n >>= base) = .ok n := by
  have hkind : Kind.of n = .base := kind_base fun h => by
    obtain ⟨front, rfl⟩ := List.getLast?_eq_some_iff.mp h
    exact hn '.' (List.mem_append_right _ List.mem_cons_self) (by decide)
  have hstrip : stripQualifiers n = .ok n := by
    rw [stripQualifiers, elements_unbracketed hn hne]
    simp [Except.map, hkind]
  rw [hstrip]
  show (split n).map (·.2) = _
  rw [split, elements_unbracketed hn hne]
  rfl

section Own

variable (hown : (g.scope g.current).typedefs.get? n = some ⟨n, true⟩) (hn : IsPathText n)
  (hcolons : n.after? "::".toList = none) (hne : n ≠ [])
include hown hn hcolons hne

/-- A class of the current scope is not expanded, nor is a pointer to it. -/
theorem unfolds_class {cs : List Constructor} (hcs : cs = [] ∨ cs = [.pointer]) :
    g.Unfolds (chain cs n) none := by
  have hplain : ∀ c ∈ cs, c.IsPlain := by
    rcases hcs with rfl | rfl
    · exact plain_nil
    · exact plain_pointer
  intro budget resolve
  have hown' : ((g.withBudget budget).scope g.current).typedefs.get? n = some ⟨n, true⟩ := hown
  have hbase : ∀ expand, (g.withBudget budget).expandBase resolve n expand =
      .ok ⟨none, some g.current⟩ := by
    intro expand
    have hlookup : (g.withBudget budget).lookupName resolve g.current n =
        .ok (some (some (n, g.current))) := lookupName_own hown'
    rw [expandBase_simple (isSimple_unbracketed hn.unbracketed) hcolons]
    exact (expandName_found hlookup).trans (by rw [if_pos rfl])
  rw [expandStep_of_split (split_chain hplain hn.unbracketed hne) hbase]
  rcases hcs with rfl | rfl
  · rfl
  · rfl

theorem means_class : g.Means n (g.spelled n) ∧
    g.Means (chain [.pointer] n) (chain [.pointer] (g.spelled n)) := by
  have hplain : g.Unfolds (chain [] n) none := unfolds_class hown hn hcolons hne (Or.inl rfl)
  have hpointer := unfolds_class hown hn hcolons hne (Or.inr rfl)
  exact ⟨means_of_resolves (Course.rest hplain).resolves (qualifies_spelled hn),
    means_of_resolves (Course.rest hpointer).resolves (qualifies_pointer (qualifies_spelled hn))⟩

end Own

/-- A name that is not expanded means what it is qualified to. -/
theorem means_spent (hn : IsPathText n) (h : g.Expansion n (.ok none)) :
    g.Means n (g.spelled n) :=
  means_of_resolves (resolves_of_spent h) (qualifies_spelled hn)

/-- A pointer to it is not expanded either. -/
theorem means_spent_pointer (hn : IsPathText n) (hne : n ≠ []) (h : g.Expansion n (.ok none)) :
    g.Means (chain [.pointer] n) (chain [.pointer] (g.spelled n)) := by
  have hpointer : ∀ f ∈ ["p.".toList], Dotted f :=
    List.forall_mem_singleton.mpr ⟨"p".toList, rfl, rfl⟩
  have hspent : g.Expansion (chain [.pointer] n) (.ok none) := by
    obtain ⟨k, hk⟩ := h.expandType (by simp)
    have hplain := hk k k (Nat.le_refl k) (Nat.le_refl k)
    refine expansion_of_expandType (k := k) (m := k) ?_ (by simp)
    refine (expandType_front hpointer (elements_unbracketed hn.unbracketed hne)).trans ?_
    rw [hplain]
    rfl
  exact means_of_resolves (resolves_of_spent hspent) (qualifies_pointer (qualifies_spelled hn))

theorem canonicalBase_of_means (h : g.Means t n) (hn : Unbracketed n) (hne : n ≠ []) :
    g.CanonicalBase t n :=
  ⟨n, h, base_unbracketed hn hne⟩

theorem canonicalBase_of_means_pointer (h : g.Means t (chain [.pointer] n)) (hn : Unbracketed n)
    (hne : n ≠ []) : g.CanonicalBase t n :=
  ⟨_, h, base_pointer hne (base_unbracketed hn hne)⟩

/-- What is not expanded, and a pointer to it, has the name it is qualified to as its base. -/
theorem canonicalBase_spent {cs : List Constructor} (hn : IsPathText n)
    (h : g.Expansion n (.ok none)) (hspelled : Unbracketed (g.spelled n))
    (hspelled' : g.spelled n ≠ []) (hcs : cs = [] ∨ cs = [.pointer]) :
    g.CanonicalBase (chain cs n) (g.spelled n) := by
  have hne : n ≠ [] := by
    rintro rfl
    exact hspelled' (by rw [spelled, if_pos rfl])
  rcases hcs with rfl | rfl
  · exact canonicalBase_of_means (means_spent hn h) hspelled hspelled'
  · exact canonicalBase_of_means_pointer (means_spent_pointer hn hne h) hspelled hspelled'

end ScopeGraph

end BindingTypes
