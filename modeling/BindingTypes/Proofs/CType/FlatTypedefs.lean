import BindingTypes.Resolver
import BindingTypes.Proofs.CType.WellFormed
import BindingTypes.Proofs.Scope.Course
import BindingTypes.Proofs.Scope.Trail
import BindingTypes.Proofs.Table
import Mathlib.Logic.Relation

namespace BindingTypes.CType

/-- A table from base names to well-formed types. -/
structure IsTypedefTable (T : Table CType) : Prop where
  key : ∀ {k u}, T.get? k = some u → IsBase k ∧ k ≠ []
  target : ∀ {k u}, T.get? k = some u →
    ∃ cs b, u = chain cs b ∧ (∀ c ∈ cs, c.IsReadable) ∧ IsBase b

/-- The typedef `k` stands for a type over the base `b`. -/
def Expands (T : Table CType) (k : Text) (cs : List Constructor) (b : Text) : Prop :=
  T.get? k = some (chain cs b) ∧ (∀ c ∈ cs, c.IsReadable) ∧ IsBase b

def BuiltOn (T : Table CType) (k b : Text) : Prop := ∃ cs, Expands T k cs b

def Acyclic (T : Table CType) : Prop := ∀ k, ¬ Relation.TransGen (BuiltOn T) k k

/-- All the expansions of a base: their number, the constructors they bring, and the base they end
at. None of them comes back to a past base. -/
inductive Unfolding (T : Table CType) : List Text → Nat → Text → List Constructor → Text → Prop
  | rest {past : List Text} {b : Text} (h : T.get? b = none) : Unfolding T past 0 b [] b
  | step {past : List Text} {n : Nat} {b b' z : Text} {cs ds : List Constructor}
    (h : Expands T b cs b') (hfresh : b' ∉ b :: past)
    (hrest : Unfolding T (b :: past) n b' ds z) : Unfolding T past (n + 1) b (cs ++ ds) z

variable {T : Table CType} {past : List Text} {n m : Nat} {b b' z t : Text}
  {c : Constructor} {cs ds : List Constructor}

theorem acyclic_of_rank (rank : Text → Nat) (h : ∀ k b, BuiltOn T k b → rank b < rank k) :
    Acyclic T := by
  intro k hk
  have hlt : ∀ {j}, Relation.TransGen (BuiltOn T) k j → rank j < rank k := by
    intro j hj
    induction hj with
    | single hb => exact h _ _ hb
    | tail _ hb ih => exact Nat.lt_trans (h _ _ hb) ih
  exact Nat.lt_irrefl _ (hlt hk)

theorem Expands.inj (h : Expands T b cs b') (h' : Expands T b ds z) : cs = ds ∧ b' = z :=
  readable_inj h.2.1 h'.2.1 h.2.2 h'.2.2 (Option.some.inj (h.1.symm.trans h'.1))

/-- Where no typedef is built on itself, there are no more expansions than typedefs. -/
theorem unfolding_of_acyclic (hT : IsTypedefTable T) (hacyclic : Acyclic T) (hnodup : past.Nodup)
    (hkeys : past ⊆ T.keys) (hpast : ∀ p ∈ past, Relation.TransGen (BuiltOn T) p b) :
    ∃ n ds z, Unfolding T past n b ds z ∧ n + past.length ≤ T.size := by
  induction hk : T.size - past.length using Nat.strongRecOn generalizing past b with
  | ind k ih =>
    cases hget : T.get? b with
    | none => exact ⟨0, [], b, .rest hget, by simpa using Table.length_le_size hnodup hkeys⟩
    | some u =>
      obtain ⟨cs, b', rfl, hcs, hb'⟩ := hT.target hget
      have hexpands : Expands T b cs b' := ⟨hget, hcs, hb'⟩
      have hstep : BuiltOn T b b' := ⟨cs, hexpands⟩
      have hb : b ∉ past := fun hm => hacyclic b (hpast b hm)
      have hnodup' : (b :: past).Nodup := List.nodup_cons.mpr ⟨hb, hnodup⟩
      have hkeys' : b :: past ⊆ T.keys := List.cons_subset.mpr
        ⟨Table.mem_keys_iff.mpr (by rw [hget]; rfl), hkeys⟩
      have hpast' : ∀ p ∈ b :: past, Relation.TransGen (BuiltOn T) p b' :=
        List.forall_mem_cons.mpr ⟨.single hstep, fun p hp => (hpast p hp).tail hstep⟩
      have hlength := Table.length_le_size hnodup' hkeys'
      rw [List.length_cons] at hlength
      obtain ⟨n, ds, z, hrest, hn⟩ :=
        ih _ (by rw [List.length_cons]; omega) hnodup' hkeys' hpast' rfl
      refine ⟨n + 1, cs ++ ds, z, .step hexpands (fun hm => hacyclic b' (hpast' b' hm)) hrest, ?_⟩
      rw [List.length_cons] at hn
      omega

theorem exists_unfolding (hT : IsTypedefTable T) (hacyclic : Acyclic T) (b : Text) :
    ∃ n ds z, Unfolding T [] n b ds z ∧ n ≤ T.size :=
  unfolding_of_acyclic hT hacyclic List.nodup_nil (List.nil_subset _) nofun

section Resolution

theorem split_readable (hcs : ∀ c ∈ cs, c.IsReadable) (hb : IsBase b) (hne : b ≠ []) :
    split (chain cs b) = .ok (chain cs [], b) := by
  rw [split, elements_readable hcs hb, if_neg hne]
  simp [Except.map, chain]

/-- The last element of a type is its base, or a constructor that has no base. -/
theorem last_element (hcs : ∀ c ∈ cs, c.IsReadable) (hb : IsBase b) :
    ∃ es, elements (chain cs b) = .ok es ∧ (b ≠ [] → es.getLastD [] = b) ∧
      (IsBase (es.getLastD []) → es.getLastD [] = b) := by
  refine ⟨_, elements_readable hcs hb, fun hne => ?_, fun h => ?_⟩
  · rw [if_neg hne]
    simp
  · by_cases hne : b = []
    · rw [if_pos hne, List.append_nil] at h ⊢
      rcases List.eq_nil_or_concat cs with rfl | ⟨init, c, rfl⟩
      · exact hne.symm
      · rw [List.concat_eq_append, List.map_append] at h
        exact absurd (by simp) (text_ne_base c h)
    · rw [if_neg hne]
      simp

theorem outline_readable (hcs : ∀ c ∈ cs, c.IsReadable) (hb : IsBase b) :
    ∃ o, outline (chain cs b) = .ok o ∧ (b ≠ [] → o.base.text = b) ∧
      (IsBase o.base.text → o.base.text = b) := by
  obtain ⟨es, hes, hlast⟩ := last_element hcs hb
  exact ⟨_, by rw [outline, hes]; rfl, hlast⟩

variable (hT : IsTypedefTable T)
include hT

theorem get?_baseless : T.get? [] = none := by
  cases hget : T.get? [] with
  | none => rfl
  | some u => exact absurd rfl (hT.key hget).2

/-- The base of a well-formed type is what the table is asked for. -/
theorem flatExpand?_chain (hcs : ∀ c ∈ cs, c.IsReadable) (hb : IsBase b) :
    Resolver.flatExpand? T (chain cs b) = .ok ((T.get? b).map (chain cs ·)) := by
  by_cases hne : b = []
  · obtain ⟨es, hes, -, hlast⟩ := last_element hcs hb
    have hnone : T.get? (es.getLastD []) = none := by
      cases hget : T.get? (es.getLastD []) with
      | none => rfl
      | some u =>
        obtain ⟨hkey, hkey'⟩ := hT.key hget
        exact absurd ((hlast hkey).trans hne) hkey'
    rw [Resolver.flatExpand?, split, hes, hne, get?_baseless hT]
    show Except.ok ((T.get? _).map _) = _
    rw [hnone]
    rfl
  · rw [Resolver.flatExpand?, split_readable hcs hb hne]
    show Except.ok ((T.get? b).map (chain cs [] ++ ·)) = _
    simp [chain]

theorem flatExpand?_base (hb : IsBase b) : Resolver.flatExpand? T b = .ok (T.get? b) := by
  have h : Resolver.flatExpand? T (chain [] b) = _ := flatExpand?_chain hT nofun hb
  simpa [chain] using h

/-- The loop of the resolver takes every expansion. -/
theorem chase_unfolding (h : Unfolding T past n b ds z) (hn : n < m)
    (hpast : ∀ p ∈ past, IsBase p ∧ p ≠ []) (hcs : ∀ c ∈ cs, c.IsReadable) (hb : IsBase b)
    {seen : List Outline} (hseen : ScopeGraph.SeenAmong past seen) :
    Resolver.chase (Resolver.flatExpand? T) m seen (chain cs b) = .ok (chain (cs ++ ds) z) := by
  induction h generalizing m cs seen with
  | @rest past b hnone =>
    obtain ⟨m, rfl⟩ : ∃ k, m = k + 1 := ⟨m - 1, by omega⟩
    rw [Resolver.chase, flatExpand?_chain hT hcs hb, hnone, List.append_nil]
    rfl
  | @step past n b b' z cs' ds hexpands hfresh hrest ih =>
    obtain ⟨m, rfl⟩ : ∃ k, m = k + 1 := ⟨m - 1, by omega⟩
    obtain ⟨hget, hcs', hb'⟩ := hexpands
    have hkey := hT.key hget
    have hall : ∀ c ∈ cs ++ cs', c.IsReadable := List.forall_mem_append.mpr ⟨hcs, hcs'⟩
    have hpast' : ∀ p ∈ b :: past, IsBase p ∧ p ≠ [] := List.forall_mem_cons.mpr ⟨hkey, hpast⟩
    have hnext : Resolver.flatExpand? T (chain cs b) = .ok (some (chain (cs ++ cs') b')) := by
      rw [flatExpand?_chain hT hcs hb, hget, chain_append]
      rfl
    obtain ⟨o, ho, hbase, -⟩ := outline_readable hcs hb
    obtain ⟨o', ho', -, hbase'⟩ := outline_readable hall hb'
    have hseen' : ScopeGraph.SeenAmong (b :: past) (o :: seen) := hbase hkey.2 ▸ hseen.cons ho
    have hnew : o'.base.text ∉ b :: past := fun hm => by
      rw [hbase' (hpast' _ hm).1] at hm
      exact hfresh hm
    obtain ⟨hwraps, hsame⟩ := hseen'.fresh ho' hnew
    rw [ScopeGraph.chase_step m hnext ho' ho, hwraps, hsame, ih (by omega) hpast' hall hb' hseen',
      List.append_assoc]
    rfl

end Resolution

end BindingTypes.CType
