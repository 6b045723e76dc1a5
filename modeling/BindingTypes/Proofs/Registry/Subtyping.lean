import BindingTypes.Proofs.Registry.FoldingLog
import BindingTypes.Proofs.Scope.CanonicalBase

namespace BindingTypes

/-- `derived` is a registered direct subtype of `base`. -/
def Registry.Registered (r : Registry) (derived base : Text) : Prop :=
  ∃ s ∈ r.subtypesOf base, s.derived = derived

namespace Environment

open ScopeGraph CType

variable {env env' : Environment} {own d k : Text} {known : List Text} {t base : CType}

/-- The environment with another budget for resolution. -/
def withBudget (env : Environment) (budget : Nat) : Environment :=
  { env with graph := env.graph.withBudget budget }

/-- `t` is a subtype of `base` with enough budget. -/
def Subtype (env : Environment) (t base : CType) : Prop :=
  Settles (fun n => (env.withBudget n).isSubtype t base) (.ok true)

theorem isSubtype_eq_ok_iff {b : Bool} : env.isSubtype t base = .ok b ↔
    ∃ c c' d k, env.graph.canonical t = .ok c ∧ (stripQualifiers c >>= CType.base) = .ok d ∧
      env.graph.canonical base = .ok c' ∧ (stripQualifiers c' >>= CType.base) = .ok k ∧
      b = (env.registry.subtypesOf k).any fun s => s.derived = d := by
  constructor
  · intro h
    obtain ⟨bare, hbare, h⟩ := bind_eq_ok h
    obtain ⟨d, hd, h⟩ := bind_eq_ok h
    obtain ⟨bare', hbare', h⟩ := bind_eq_ok h
    obtain ⟨k, hk, h⟩ := bind_eq_ok h
    obtain ⟨c, hc, hstrip⟩ := bind_eq_ok hbare
    obtain ⟨c', hc', hstrip'⟩ := bind_eq_ok hbare'
    refine ⟨c, c', d, k, hc, ?_, hc', ?_, (Except.ok.inj h).symm⟩
    · rw [hstrip]
      exact hd
    · rw [hstrip']
      exact hk
  · rintro ⟨c, c', d, k, hc, hd, hc', hk, rfl⟩
    obtain ⟨bare, hstrip, hd⟩ := bind_eq_ok hd
    obtain ⟨bare', hstrip', hk⟩ := bind_eq_ok hk
    have hbare : env.canonical t = .ok bare := by
      rw [canonical, hc]
      exact hstrip
    have hbare' : env.canonical base = .ok bare' := by
      rw [canonical, hc']
      exact hstrip'
    rw [isSubtype, hbare]
    show (CType.base bare >>= _ : Except Fault Bool) = _
    rw [hd]
    show (env.canonical base >>= _ : Except Fault Bool) = _
    rw [hbare']
    show (CType.base bare' >>= _ : Except Fault Bool) = _
    rw [hk]
    rfl

theorem any_subtypesOf {r : Registry} :
    (r.subtypesOf k).any (fun s => s.derived = d) = true ↔ r.Registered d k := by
  simp [Registry.Registered]

theorem subtype_iff : env.Subtype t base ↔ ∃ d k, env.graph.CanonicalBase t d ∧
    env.graph.CanonicalBase base k ∧ env.registry.Registered d k := by
  constructor
  · rintro ⟨n, hn⟩
    obtain ⟨c, c', d, k, hc, hd, hc', hk, hany⟩ := isSubtype_eq_ok_iff.mp (hn n (Nat.le_refl n))
    exact ⟨d, k, ⟨c, means_of_canonical hc, hd⟩, ⟨c', means_of_canonical hc', hk⟩,
      any_subtypesOf.mp hany.symm⟩
  · rintro ⟨d, k, ⟨c, hc, hd⟩, ⟨c', hc', hk⟩, hr⟩
    obtain ⟨n, hn⟩ := hc.reached
    obtain ⟨n', hn'⟩ := hc'.reached
    refine ⟨max n n', fun m hm => isSubtype_eq_ok_iff.mpr ⟨c, c', d, k, ?_, hd, ?_, hk, ?_⟩⟩
    · exact hn m (Nat.le_trans (Nat.le_max_left n n') hm)
    · exact hn' m (Nat.le_trans (Nat.le_max_right n n') hm)
    · exact (any_subtypesOf.mpr hr).symm

/-- Whatever budget an answer is given with, it is the answer. -/
theorem subtype_iff_of_isSubtype {n : Nat} {b : Bool}
    (h : (env.withBudget n).isSubtype t base = .ok b) : env.Subtype t base ↔ b = true := by
  obtain ⟨c, c', d, k, hc, hd, hc', hk, rfl⟩ := isSubtype_eq_ok_iff.mp h
  have ht : env.graph.CanonicalBase t d := ⟨c, means_of_canonical hc, hd⟩
  have hbase : env.graph.CanonicalBase base k := ⟨c', means_of_canonical hc', hk⟩
  rw [subtype_iff]
  refine Iff.trans ⟨?_, fun hr => ⟨d, k, ht, hbase, hr⟩⟩ any_subtypesOf.symm
  rintro ⟨d', k', ht', hbase', hr⟩
  cases ht.unique ht'
  cases hbase.unique hbase'
  exact hr

theorem registered_addSubtype {derived : Text} {cast : Option Text}
    (h : env.addSubtype own derived cast = .ok env') :
    env'.registry.Registered d k ↔ env.registry.Registered d k ∨
      env.subtypeName own = .ok d ∧ env.subtypeName derived = .ok k := by
  unfold addSubtype at h
  obtain ⟨own', hown, h⟩ := bind_eq_ok h
  obtain ⟨base', hbase, h⟩ := bind_eq_ok h
  cases h
  rw [hown, hbase]
  simp only [Registry.Registered, Registry.subtypesOf, Table.get?_insert]
  by_cases hk : k = base'
  · subst hk
    rw [if_pos rfl, Option.getD_some]
    simp only [Except.ok.injEq, and_true]
    split
    · rename_i hany
      obtain ⟨s, hs, hd⟩ := List.any_eq_true.mp hany
      refine ⟨Or.inl, fun hr => hr.elim id ?_⟩
      rintro rfl
      exact ⟨s, hs, of_decide_eq_true hd⟩
    · simp only [List.mem_append, List.mem_singleton, or_and_right, exists_or, exists_eq_left]
  · rw [if_neg hk]
    simp only [Except.ok.injEq]
    exact ⟨Or.inl, fun hr => hr.elim id fun hr => absurd hr.2.symm hk⟩

/-- The edges after all bases of a class were registered. -/
theorem registered_addSubtypes
    (h : known.foldlM (fun env base => Environment.addSubtype env own base none) env = .ok env') :
    env'.registry.Registered d k ↔ env.registry.Registered d k ∨
      env.subtypeName own = .ok d ∧ ∃ base ∈ known, env.subtypeName base = .ok k := by
  induction known generalizing env with
  | nil =>
    cases h
    simp
  | cons base known ih =>
    obtain ⟨mid, hmid, h⟩ := bind_eq_ok h
    have hname : ∀ n, mid.subtypeName n = env.subtypeName n := by
      intro n
      rw [subtypeName, subtypeName, graph_addSubtype hmid]
    rw [ih h, registered_addSubtype hmid]
    simp only [hname, List.mem_cons, exists_eq_or_imp, or_assoc, and_or_left]

end Environment

end BindingTypes
