import BindingTypes.Proofs.Scope.Memory

namespace BindingTypes.ScopeGraph

/-- What work done with a memory comes to: an outcome of the plain work with enough budget, and a
memory that is right again. -/
def Follows {α : Type} (g : ScopeGraph) (x : Remembering α) (y : Nat → Except Fault α) : Prop :=
  ∀ s : Memory, s.RightFor g →
    match x.run s with
    | .ok (a, s') => Settles y (.ok a) ∧ s'.RightFor g
    | .error f => f = .exhausted ∨ Settles y (.error f)

/-- Work done with the memory `s` has the outcome `y`, unless that ran out of budget. -/
def ReachesFrom {α : Type} (g : ScopeGraph) (s : Memory) (x : Remembering α) :
    Except Fault α → Prop
  | .ok a => ∃ s', x.run s = .ok (a, s') ∧ s'.RightFor g
  | .error f => f = .exhausted ∨ x.run s = .error f

/-- Work done with a memory has every outcome that the plain work has within the same budget. -/
def Reaches {α : Type} (g : ScopeGraph) (x : Remembering α) (y : Except Fault α) : Prop :=
  ∀ s : Memory, s.RightFor g → g.ReachesFrom s x y

variable {α β : Type} {g : ScopeGraph}

theorem Follows.bind {x : Remembering α} {y : Nat → Except Fault α} {f : α → Remembering β}
    {h : Nat → α → Except Fault β} (hx : g.Follows x y) (hf : ∀ a, g.Follows (f a) fun k => h k a) :
    g.Follows (x >>= f) fun k => y k >>= h k := by
  intro s hs
  have hxs := hx s hs
  rw [StateT.run_bind]
  cases hr : x.run s with
  | error e =>
    rw [hr] at hxs
    exact hxs.imp id Settles.bind_error
  | ok r =>
    rw [hr] at hxs
    have hfs := hf r.1 r.2 hxs.2
    change match (f r.1).run r.2 with
      | .ok (b, s') => Settles _ (.ok b) ∧ s'.RightFor g
      | .error e => e = .exhausted ∨ Settles _ (.error e)
    cases hr' : (f r.1).run r.2 with
    | error e =>
      rw [hr'] at hfs
      exact hfs.imp id fun h => hxs.1.bind_ok h
    | ok r' =>
      rw [hr'] at hfs
      exact ⟨hxs.1.bind_ok hfs.1, hfs.2⟩

theorem Reaches.bind {x : Remembering α} {y : Except Fault α} {f : α → Remembering β}
    {h : α → Except Fault β} (hx : g.Reaches x y) (hf : ∀ a, g.Reaches (f a) (h a)) :
    g.Reaches (x >>= f) (y >>= h) := by
  intro s hs
  have hxs := hx s hs
  cases y with
  | error e =>
    refine hxs.imp id fun hr => ?_
    rw [StateT.run_bind, hr]
    rfl
  | ok a =>
    obtain ⟨s', hr, hs'⟩ := hxs
    have hrun : (x >>= f).run s = (f a).run s' := by rw [StateT.run_bind, hr]; rfl
    have hb := hf a s' hs'
    change g.ReachesFrom s (x >>= f) (h a)
    cases hy : h a with
    | ok b => rw [ReachesFrom, hrun]; rwa [hy] at hb
    | error e => rw [ReachesFrom, hrun]; rwa [hy] at hb

def follows (g : ScopeGraph) : Simulation Remembering Nat where
  related x y := g.Follows x y
  pure a _ hs := ⟨Settles.const _, hs⟩
  lift e _ hs := by
    cases e with
    | ok a => exact ⟨Settles.const _, hs⟩
    | error f => exact Or.inr (Settles.const _)
  bind hx hf := hx.bind hf

def reaches (g : ScopeGraph) : Simulation Remembering Unit where
  related x y := g.Reaches x (y ())
  pure a s hs := ⟨s, rfl, hs⟩
  lift e s hs := by
    cases e with
    | ok a => exact ⟨s, rfl, hs⟩
    | error f => exact Or.inr rfl
  bind hx hf := hx.bind hf

/-- From a right memory `ask` is answered at once with what `y` comes to, or as `work` is; then an
answer that `y` comes to leaves the memory right. -/
def Recalls (g : ScopeGraph) (y : Nat → Except Fault CType) (ask work : Remembering CType) : Prop :=
  ∀ s : Memory, s.RightFor g → (∃ a, ask.run s = .ok (a, s) ∧ Settles y (.ok a)) ∨
    (∀ f, work.run s = .error f → ask.run s = .error f) ∧
      ∀ a s', work.run s = .ok (a, s') → s'.RightFor g → Settles y (.ok a) →
        ∃ s'', ask.run s = .ok (a, s'') ∧ s''.RightFor g

theorem recalls_of_kept {y : Nat → Except Fault CType} {get? : Memory → Option CType}
    {keep : Memory → CType → Memory} {ask work : Remembering CType} (h : Kept get? keep ask work)
    (hget : ∀ s a, s.RightFor g → get? s = some a → Settles y (.ok a))
    (hkeep : ∀ s a, s.RightFor g → Settles y (.ok a) → (keep s a).RightFor g) :
    g.Recalls y ask work := by
  intro s hs
  cases hm : get? s with
  | some a => exact Or.inl ⟨a, h.known s a hm, hget s a hs hm⟩
  | none => exact Or.inr ⟨fun f => h.failed s f hm, fun a s' hw hs' ha =>
      ⟨_, h.new s a s' hm hw, hkeep s' a hs' ha⟩⟩

/-- A remembered resolution is right, and a new one is remembered. -/
theorem recalls_resolved (g : ScopeGraph) (t : CType) (work : Remembering CType) :
    g.Recalls (fun n => (g.withBudget n).resolveVia .never t) (Reuse.always.resolved g t work)
      work :=
  recalls_of_kept (Reuse.kept_resolved g t work) (fun _ a hs => hs.resolved t a)
    fun _ _ hs => hs.insertResolved

theorem recalls_qualified (g : ScopeGraph) (t : CType) (work : Remembering CType) :
    g.Recalls (fun n => (g.withBudget n).qualifyVia .never t) (Reuse.always.qualified g t work)
      work :=
  recalls_of_kept (Reuse.kept_qualified g t work) (fun _ a hs => hs.qualified t a)
    fun _ _ hs => hs.insertQualified

theorem Recalls.follows {y : Nat → Except Fault CType} {ask work : Remembering CType}
    (hask : g.Recalls y ask work) (h : g.Follows work y) : g.Follows ask y := by
  intro s hs
  have hw := h s hs
  rcases hask s hs with ⟨a, hrun, ha⟩ | ⟨hfailed, hnew⟩
  · rw [hrun]
    exact ⟨ha, hs⟩
  · cases hr : work.run s with
    | error f =>
      rw [hr] at hw
      rw [hfailed f hr]
      exact hw
    | ok r =>
      rw [hr] at hw
      obtain ⟨s'', hrun, hs''⟩ := hnew r.1 r.2 hr hw.2 hw.1
      rw [hrun]
      exact ⟨hw.1, hs''⟩

theorem Follows.of_refines_succ {x : Remembering α} {y z : Nat → Except Fault α} {n : Nat}
    (h : g.Follows x y) (hyz : ∀ k, n ≤ k → Refines (y k) (z (k + 1))) : g.Follows x z := by
  intro s hs
  have hxs := h s hs
  cases hr : x.run s with
  | error f =>
    rw [hr] at hxs
    by_cases hf : f = .exhausted
    · exact Or.inl hf
    · exact Or.inr ((hxs.resolve_left hf).of_refines_succ (by simp [hf]) hyz)
  | ok r =>
    rw [hr] at hxs
    exact ⟨hxs.1.of_refines_succ (by simp) hyz, hxs.2⟩

/-- Expansion step by step, each step with what resolution gives at one budget, comes to what
resolution gives with one step of budget more. -/
theorem chase_refines_resolveVia (g : ScopeGraph) {n k : Nat} (h : n ≤ k) (t : CType) :
    Refines (Resolver.chase
      (fun u => (·.type) <$> (g.withBudget k).expandStep ((g.withBudget k).resolveVia .never) u)
      (n + 1) [] t) ((g.withBudget (k + 1)).resolveVia .never t) := by
  have hr : ∀ u, largerBudget.related ((g.withBudget k).resolveVia .never u)
      fun _ => (g.withBudget (k + 1)).resolveTo .never k u :=
    fun u => g.resolveTo_refines (Nat.le_succ k) (Nat.le_refl k) u
  have hc := largerBudget.chase (fun u => largerBudget.map (·.type)
    (largerBudget.expandStep (fun _ => g.withBudget_alike k (k + 1)) hr u)) (n + 1) [] t
  exact Refines.trans hc (chase_refines _ (by simpa using Nat.le_succ_of_le h) [] t)

theorem follows_chase (r : CType → Remembering CType)
    (hr : ∀ u, g.Follows (r u) fun n => (g.withBudget n).resolveVia .never u) (n : Nat)
    (t : CType) :
    g.Follows (Resolver.chase (fun u => (·.type) <$> g.expandStep r u) (n + 1) [] t)
      fun n => (g.withBudget n).resolveVia .never t := by
  have hc := g.follows.chase (fun u => g.follows.map (·.type)
    (g.follows.expandStep (fun n => g.alike_withBudget n) hr u)) (n + 1) [] t
  exact Follows.of_refines_succ hc fun k hk => g.chase_refines_resolveVia hk t

theorem follows_resolveTo (n : Nat) (t : CType) :
    g.Follows (g.resolveTo .always n t) fun n => (g.withBudget n).resolveVia .never t := by
  induction n generalizing t with
  | zero => exact fun s hs => Or.inl rfl
  | succ n ih => exact (g.recalls_resolved t _).follows (follows_chase _ ih g.budget t)

theorem follows_qualifyValue (v : Text) :
    g.Follows (g.qualifyValue .always v) fun n => (g.withBudget n).qualifyValue .never v := by
  have hr : ∀ t : CType, g.Follows (g.resolveVia .always t)
      fun n => (g.withBudget n).resolveVia .never t := fun t => follows_resolveTo g.budget t
  have hq := g.follows.qualifyValueFrom (fun n => g.alike_withBudget n) hr (g.budget + 1) [] v
  refine Follows.of_refines_succ (n := g.budget) hq fun k hk => ?_
  exact g.qualifyValueFrom_refines (Nat.le_succ k) (by simp; omega) [] v

theorem follows_qualifyVia (t : CType) :
    g.Follows (g.qualifyVia .always t) fun n => (g.withBudget n).qualifyVia .never t :=
  g.follows.qualifyVia (fun n => g.alike_withBudget n) follows_qualifyValue
    (fun t _ h => (g.recalls_qualified t _).follows h) t

/-- What the plain work comes to is given, from the memory or anew. -/
theorem Recalls.reaches {y : Except Fault CType} {z : Nat → Except Fault CType}
    {ask work : Remembering CType} (hask : g.Recalls z ask work)
    (hy : y ≠ .error .exhausted → Settles z y) (h : g.Reaches work y) : g.Reaches ask y := by
  intro s hs
  have hw := h s hs
  by_cases he : y = .error .exhausted
  · subst he
    exact Or.inl rfl
  rcases hask s hs with ⟨a, hrun, ha⟩ | ⟨hfailed, hnew⟩
  · obtain rfl := (hy he).unique ha
    exact ⟨s, hrun, hs⟩
  · cases y with
    | error f => exact hw.imp id (hfailed f)
    | ok a =>
      obtain ⟨s', hr, hs'⟩ := hw
      exact hnew a s' hr hs' (hy he)

theorem reaches_resolveTo (n : Nat) (t : CType) :
    g.Reaches (g.resolveTo .always n t) (g.resolveTo .never n t) := by
  induction n generalizing t with
  | zero => exact fun s hs => Or.inl rfl
  | succ n ih =>
    have hc := g.reaches.chase (fun u => g.reaches.map (·.type)
      (g.reaches.expandStep (s := fun _ => g.resolveTo .never n) (fun _ => Alike.refl g) ih u))
      (g.budget + 1) [] t
    exact (g.recalls_resolved t _).reaches (resolves_of_resolveTo rfl) hc

theorem reaches_qualifyVia (t : CType) :
    g.Reaches (g.qualifyVia .always t) (g.qualifyVia .never t) := by
  have hr : ∀ u : CType, g.Reaches (g.resolveVia .always u) (g.resolveVia .never u) :=
    fun u => reaches_resolveTo g.budget u
  exact g.reaches.qualifyVia (fun _ => Alike.refl g)
    (fun v => g.reaches.qualifyValueFrom (fun _ => Alike.refl g) hr (g.budget + 1) [] v)
    (fun t _ h => (g.recalls_qualified t _).reaches (qualifies_of_run (n := g.budget) rfl) h) t

end BindingTypes.ScopeGraph
