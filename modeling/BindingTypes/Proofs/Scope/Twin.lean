import BindingTypes.Proofs.CType.Composed
import BindingTypes.Proofs.Scope.Trail

namespace BindingTypes.ScopeGraph

open CType Relation

variable {g : ScopeGraph} {t t' u v w b e : CType} {fs fs' : List Text} {k : Nat}

theorem becomes_of_base (ht : Composed t fs b) (h : g.Becomes b e) :
    g.Becomes t (fs.flatten ++ e) := by
  obtain ⟨n, hn⟩ := Expansion.expandType h (by simp)
  have hbase := hn n n (Nat.le_refl n) (Nat.le_refl n)
  have hwhole := expandType_of_base ht.dotted ht.single hbase
  rw [← ht.eq] at hwhole
  exact expansion_of_expandType hwhole (by simp)

theorem becomes_total (h : ReflTransGen g.Becomes t u) (h' : ReflTransGen g.Becomes t v) :
    ReflTransGen g.Becomes u v ∨ ReflTransGen g.Becomes v u :=
  h.total_of_right_unique (fun _ _ _ hu hv => Becomes.unique hu hv) h'

namespace Readable

variable (hg : g.Readable)
include hg

theorem written_of_becomes (h : g.Becomes t u) : IsWritten u := by
  obtain ⟨n, hn⟩ := Expansion.expandType h (by simp)
  have hn := hn n n (Nat.le_refl n) (Nat.le_refl n)
  have hg' : (g.withBudget n).Readable := hg.of_scopes rfl
  exact hg'.written_expandType hn

theorem composed_of_becomes (h : g.Becomes t u) : ∃ gs c, Composed u gs c := by
  have hu := hg.written_of_becomes h
  exact composed_of_balanced hu.1 hu.2

/-- A step replaces the base, or it leaves base and number of elements as they are. -/
theorem becomes_cases (ht : Composed t fs b) (h : g.Becomes t u) :
    (∃ e, g.Becomes b e ∧ u = fs.flatten ++ e) ∨
      (g.Expansion b (.ok none) ∧ ∃ fs', Composed u fs' b ∧ fs'.length = fs.length) := by
  obtain ⟨n, hn⟩ := Expansion.expandType h (by simp)
  have hn := hn n n (Nat.le_refl n) (Nat.le_refl n)
  have hg' : (g.withBudget n).Readable := hg.of_scopes rfl
  rw [ht.eq] at hn
  rcases expandType_cases ht.dotted ht.single hn with ⟨e, he, hu⟩ | ⟨hb, hu | ⟨x, hne, hx, hu⟩⟩
  · cases hu
    exact Or.inl ⟨e, expansion_of_expandType he (by simp), rfl⟩
  · cases hu
  · cases hu
    obtain ⟨fs', rfl, hdotted, hlength⟩ := hg'.fronts_expandType ht.dotted hx hne
    have hu : Composed (fs'.flatten ++ b) fs' b := ⟨rfl, hdotted, ht.single, ht.ne_nil⟩
    exact Or.inr ⟨expansion_of_expandType hb (by simp), fs', hu, hlength⟩

/-- A base that does not expand is there for good, and so is the number of elements. -/
theorem composed_of_spent (ht : Composed t fs b) (hb : g.Expansion b (.ok none))
    (h : ReflTransGen g.Becomes t v) : ∃ fs', Composed v fs' b ∧ fs'.length = fs.length := by
  induction h with
  | refl => exact ⟨fs, ht, rfl⟩
  | tail _ hstep ih =>
    obtain ⟨fs', hv, hlength⟩ := ih
    rcases hg.becomes_cases hv hstep with ⟨e, he, -⟩ | ⟨-, fs'', hw, hlength'⟩
    · exact absurd hb he.not_spent
    · exact ⟨fs'', hw, hlength'.trans hlength⟩

/-- Of two types with the same base and more elements in one, where one comes after the other, the
base expands. -/
theorem base_not_spent (htwin : Twin k t t') (hk : 0 < k)
    (h : ReflTransGen g.Becomes t t' ∨ ReflTransGen g.Becomes t' t) (ht : Composed t fs b) :
    ¬ g.Expansion b (.ok none) := by
  intro hb
  obtain ⟨fs₁, fs₂, b₁, h₁, h₂, hlength⟩ := htwin
  obtain ⟨rfl, rfl⟩ := h₁.unique ht
  rcases h with h | h
  · obtain ⟨fs', ht', hkept⟩ := hg.composed_of_spent ht hb h
    obtain ⟨rfl, -⟩ := ht'.unique h₂
    omega
  · obtain ⟨fs', ht', hkept⟩ := hg.composed_of_spent h₂ hb h
    obtain ⟨rfl, -⟩ := ht'.unique ht
    omega

/-- The step that replaces the base of a type replaces it in its twin. -/
theorem twin_becomes (htwin : Twin k t t') (h : g.Becomes t u)
    (hb : ∀ fs b, Composed t fs b → ¬ g.Expansion b (.ok none)) :
    ∃ u', g.Becomes t' u' ∧ Twin k u u' := by
  obtain ⟨fs, fs', b, ht, ht', hlength⟩ := htwin
  rcases hg.becomes_cases ht h with ⟨e, he, rfl⟩ | ⟨hspent, -⟩
  · obtain ⟨gs, c, hc⟩ := hg.composed_of_becomes he
    have hlength' : (fs' ++ gs).length = (fs ++ gs).length + k := by
      simp only [List.length_append]
      omega
    exact ⟨fs'.flatten ++ e, becomes_of_base ht' he, fs ++ gs, fs' ++ gs, c, ht.under hc,
      ht'.under hc, hlength'⟩
  · exact absurd hspent (hb fs b ht)

/-- Where a type comes to one that wraps it, all that comes after it comes again, with as many more
elements. -/
theorem twin_reached (htwin : Twin k t t') (hk : 0 < k) (hback : ReflTransGen g.Becomes t t')
    (h : ReflTransGen g.Becomes t v) : ∃ v', ReflTransGen g.Becomes t' v' ∧ Twin k v v' := by
  induction h with
  | refl => exact ⟨t', .refl, htwin⟩
  | tail hv hstep ih =>
    obtain ⟨v', hv', hvtwin⟩ := ih
    have horder := becomes_total hv (hback.trans hv')
    have hb : ∀ fs b, Composed _ fs b → ¬ g.Expansion b (.ok none) := fun fs b =>
      hg.base_not_spent hvtwin hk horder
    obtain ⟨w', hw', hwtwin⟩ := hg.twin_becomes hvtwin hstep hb
    exact ⟨w', hv'.tail hw', hwtwin⟩

/-- Behind a type that is wrapped later no base is spent. -/
theorem not_spent_of_twin (htwin : Twin k t t') (hk : 0 < k) (hback : ReflTransGen g.Becomes t t')
    (h : ReflTransGen g.Becomes t v) (hv : Composed v fs b) : ¬ g.Expansion b (.ok none) := by
  obtain ⟨v', hv', hvtwin⟩ := hg.twin_reached htwin hk hback h
  exact hg.base_not_spent hvtwin hk (becomes_total h (hback.trans hv')) hv

theorem exists_longer (htwin : Twin k t t') (hk : 0 < k) (hback : ReflTransGen g.Becomes t t')
    (n : Nat) : ∃ v fs b, ReflTransGen g.Becomes t v ∧ Composed v fs b ∧ n ≤ fs.length := by
  induction n with
  | zero =>
    obtain ⟨fs, -, b, ht, -, -⟩ := htwin
    exact ⟨t, fs, b, .refl, ht, Nat.zero_le _⟩
  | succ n ih =>
    obtain ⟨v, fs, b, hv, hcv, hn⟩ := ih
    obtain ⟨v', hv', fs₁, fs₂, c, h₁, h₂, hlength⟩ := hg.twin_reached htwin hk hback hv
    obtain ⟨rfl, rfl⟩ := h₁.unique hcv
    exact ⟨v', fs₂, c, hback.trans hv', h₂, by omega⟩

/-- What comes after a type that is wrapped later fills no list. -/
theorem exists_notMem (htwin : Twin k t t') (hk : 0 < k) (hback : ReflTransGen g.Becomes t t')
    (l : List CType) : ∃ v, ReflTransGen g.Becomes t v ∧ v ∉ l := by
  obtain ⟨v, fs, b, hv, hcv, hlong⟩ := hg.exists_longer htwin hk hback (l.flatten.length + 1)
  refine ⟨v, hv, fun hmem => ?_⟩
  have hshort : v.length ≤ l.flatten.length := (List.sublist_flatten_of_mem hmem).length_le
  have hfs := hcv.length_le
  omega

end Readable

end BindingTypes.ScopeGraph
