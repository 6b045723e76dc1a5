import BindingTypes.Proofs.Scope.Sufficient

namespace BindingTypes

namespace ScopeGraph

/-- The outcome of resolving `t` with nothing remembered, from some budget on. -/
def Resolves (g : ScopeGraph) (t : CType) : Except Fault CType → Prop :=
  Settles fun n => (g.withBudget n).resolveVia .never t

/-- The outcome of qualifying `t` with nothing remembered, from some budget on. -/
def Qualifies (g : ScopeGraph) (t : CType) : Except Fault CType → Prop :=
  Settles fun n => (g.withBudget n).qualifyVia .never t

theorem qualifies_of_run {g : ScopeGraph} {n : Nat} {t : CType} {r : Except Fault CType}
    (h : (g.withBudget n).qualifyVia .never t = r) (hr : r ≠ .error .exhausted) :
    g.Qualifies t r := by
  subst h
  exact settles_of_refines (fun n k hnk => g.qualifyVia_refines hnk t) hr

theorem resolves_of_resolveTo {g : ScopeGraph} {n : Nat} {t : CType} {r : Except Fault CType}
    (h : g.resolveTo .never n t = r) (hr : r ≠ .error .exhausted) : g.Resolves t r := by
  refine ⟨max n g.budget, fun k hk => ?_⟩
  have hle := g.resolveTo_refines (n := g.budget) (k := k) (d := n) (e := k) (by omega)
    (by omega) t
  exact (hle.eq_of_ne (h ▸ hr)).trans h

end ScopeGraph

/-- Every answer that can be given again in `g` is the one that `g` gives with nothing remembered,
and no answer is younger than `g`. -/
structure Memory.RightFor (s : Memory) (g : ScopeGraph) : Prop where
  resolvedGeneration : s.resolved.generation ≤ g.generation
  qualifiedGeneration : s.qualified.generation ≤ g.generation
  resolved : ∀ t a, s.resolved.get? g t = some a → g.Resolves t (.ok a)
  qualified : ∀ t a, s.qualified.get? g t = some a → g.Qualifies t (.ok a)

theorem Answers.get?_empty (g : ScopeGraph) (t : CType) : ({} : Answers).get? g t = none := by
  by_cases hg : 0 = g.generation <;> simp [Answers.get?, Answers.during, hg]

/-- A right answer that is put in leaves the answers right. -/
theorem Answers.right_insert {a : Answers} {g : ScopeGraph} {t x : CType}
    {right : CType → CType → Prop} (h : ∀ u y, a.get? g u = some y → right u y) (hx : right t x) :
    ∀ u y, (a.insert g t x).get? g u = some y → right u y := by
  intro u y hy
  rw [Answers.get?_insert] at hy
  split at hy
  next hut =>
    cases hy
    exact hut ▸ hx
  next => exact h u y hy

namespace Memory.RightFor

variable {s : Memory} {g : ScopeGraph}

theorem empty (g : ScopeGraph) : ({} : Memory).RightFor g where
  resolvedGeneration := Nat.zero_le _
  qualifiedGeneration := Nat.zero_le _
  resolved t a h := by
    cases (Answers.get?_empty g t).symm.trans h
  qualified t a h := by
    cases (Answers.get?_empty g t).symm.trans h

/-- A later graph is given none of the answers. -/
theorem later {g' : ScopeGraph} (h : s.RightFor g) (hlt : g.generation < g'.generation) :
    s.RightFor g' where
  resolvedGeneration := Nat.le_of_lt (Nat.lt_of_le_of_lt h.resolvedGeneration hlt)
  qualifiedGeneration := Nat.le_of_lt (Nat.lt_of_le_of_lt h.qualifiedGeneration hlt)
  resolved t a ha := by
    have hne := Nat.ne_of_lt (Nat.lt_of_le_of_lt h.resolvedGeneration hlt)
    simp [Answers.get?_of_generation_ne hne] at ha
  qualified t a ha := by
    have hne := Nat.ne_of_lt (Nat.lt_of_le_of_lt h.qualifiedGeneration hlt)
    simp [Answers.get?_of_generation_ne hne] at ha

theorem withBudget (h : s.RightFor g) (n : Nat) : s.RightFor (g.withBudget n) :=
  ⟨h.resolvedGeneration, h.qualifiedGeneration, h.resolved, h.qualified⟩

theorem insertResolved (h : s.RightFor g) {t a : CType} (ha : g.Resolves t (.ok a)) :
    ({ s with resolved := s.resolved.insert g t a } : Memory).RightFor g where
  resolvedGeneration := Nat.le_refl _
  qualifiedGeneration := h.qualifiedGeneration
  resolved := Answers.right_insert h.resolved ha
  qualified := h.qualified

theorem insertQualified (h : s.RightFor g) {t a : CType} (ha : g.Qualifies t (.ok a)) :
    ({ s with qualified := s.qualified.insert g t a } : Memory).RightFor g where
  resolvedGeneration := h.resolvedGeneration
  qualifiedGeneration := Nat.le_refl _
  resolved := h.resolved
  qualified := Answers.right_insert h.qualified ha

end Memory.RightFor

/-- `ask` is answered by what `get?` finds in the memory, and else by `work`, whose answer is
kept. -/
structure Kept (get? : Memory → Option CType) (keep : Memory → CType → Memory)
    (ask work : Remembering CType) : Prop where
  known : ∀ s a, get? s = some a → ask.run s = .ok (a, s)
  new : ∀ s a s', get? s = none → work.run s = .ok (a, s') → ask.run s = .ok (a, keep s' a)
  failed : ∀ s f, get? s = none → work.run s = .error f → ask.run s = .error f

theorem kept_lookup (get? : Memory → Option CType) (keep : Memory → CType → Memory)
    (work : Remembering CType) :
    Kept get? keep (do
      match get? (← get) with
      | some answer => return answer
      | none =>
        let answer ← work
        modify fun s => keep s answer
        return answer) work where
  known s a h := by
    simp only [StateT.run_bind, StateT.run_get, pure_bind, h]
    rfl
  new s a s' h hw := by
    simp only [StateT.run_bind, StateT.run_get, pure_bind, h, hw]
    rfl
  failed s f h hw := by
    simp only [StateT.run_bind, StateT.run_get, pure_bind, h, hw]
    rfl

namespace Reuse

variable (g : ScopeGraph) (t : CType) (work : Remembering CType)

theorem kept_resolved : Kept (fun s => s.resolved.get? g t)
    (fun s a => { s with resolved := s.resolved.insert g t a }) (Reuse.always.resolved g t work)
    work := kept_lookup _ _ work

theorem kept_qualified : Kept (fun s => s.qualified.get? g t)
    (fun s a => { s with qualified := s.qualified.insert g t a }) (Reuse.always.qualified g t work)
    work := kept_lookup _ _ work

end Reuse

end BindingTypes
