import BindingTypes.Proofs.Scope.Simulation

namespace BindingTypes

/-- The second outcome is the first one, unless that ran out of budget. -/
def Refines {α : Type} (x y : Except Fault α) : Prop := x = .error .exhausted ∨ x = y

namespace Refines

variable {α β : Type} {x y z : Except Fault α}

theorem refl (x : Except Fault α) : Refines x x := Or.inr rfl

theorem trans (h : Refines x y) (h' : Refines y z) : Refines x z := by
  rcases h with h | rfl
  · exact Or.inl h
  · exact h'

theorem eq_of_ne (h : Refines x y) (hx : x ≠ .error .exhausted) : y = x :=
  (h.resolve_left hx).symm

theorem bind {f h : α → Except Fault β} (hx : Refines x y) (hf : ∀ a, Refines (f a) (h a)) :
    Refines (x >>= f) (y >>= h) := by
  rcases hx with rfl | rfl
  · exact Or.inl rfl
  · cases x with
    | error e => exact refl _
    | ok a => exact hf a

end Refines

/-- From some budget on the outcome is `r`. -/
def Settles {α : Type} (y : Nat → Except Fault α) (r : Except Fault α) : Prop :=
  ∃ n, ∀ k, n ≤ k → y k = r

namespace Settles

variable {α β : Type} {y z : Nat → Except Fault α} {r r' : Except Fault α}

theorem const (r : Except Fault α) : Settles (fun _ => r) r := ⟨0, fun _ _ => rfl⟩

theorem unique (h : Settles y r) (h' : Settles y r') : r = r' := by
  obtain ⟨n, hn⟩ := h
  obtain ⟨k, hk⟩ := h'
  exact (hn _ (Nat.le_max_left n k)).symm.trans (hk _ (Nat.le_max_right n k))

theorem bind_ok {a : α} {h : Nat → α → Except Fault β} {r : Except Fault β}
    (hy : Settles y (.ok a)) (hh : Settles (fun k => h k a) r) :
    Settles (fun k => y k >>= h k) r := by
  obtain ⟨n, hn⟩ := hy
  obtain ⟨n', hn'⟩ := hh
  refine ⟨max n n', fun k hk => ?_⟩
  simp only [hn k (by omega), ← hn' k (by omega)]
  rfl

theorem bind_error {f : Fault} {h : Nat → α → Except Fault β} (hy : Settles y (.error f)) :
    Settles (fun k => y k >>= h k) (.error f) := by
  obtain ⟨n, hn⟩ := hy
  exact ⟨n, fun k hk => by simp only [hn k hk]; rfl⟩

/-- One more step of budget for what is asked on the way changes nothing in the end. -/
theorem of_refines_succ (h : Settles y r) (hr : r ≠ .error .exhausted) {n : Nat}
    (hyz : ∀ k, n ≤ k → Refines (y k) (z (k + 1))) : Settles z r := by
  obtain ⟨n', hn'⟩ := h
  refine ⟨max n n' + 1, fun k hk => ?_⟩
  obtain ⟨j, rfl⟩ : ∃ j, k = j + 1 := ⟨k - 1, by omega⟩
  have hj := hyz j (by omega)
  rw [hn' j (by omega)] at hj
  exact hj.eq_of_ne hr

end Settles

theorem settles_of_refines {α : Type} {y : Nat → Except Fault α}
    (h : ∀ n k, n ≤ k → Refines (y n) (y k)) {n : Nat} (hn : y n ≠ .error .exhausted) :
    Settles y (y n) :=
  ⟨n, fun k hk => (h n k hk).eq_of_ne hn⟩

theorem chase_refines (e : CType → Except Fault (Option CType)) {n k : Nat} (h : n ≤ k)
    (seen : List CType.Outline) (t : CType) :
    Refines (Resolver.chase e n seen t) (Resolver.chase e k seen t) := by
  induction n generalizing k seen t with
  | zero => exact Or.inl rfl
  | succ n ih =>
    obtain ⟨k, rfl⟩ : ∃ j, k = j + 1 := ⟨k - 1, by omega⟩
    refine Refines.bind (Refines.refl _) fun expanded => ?_
    cases expanded with
    | none => exact Refines.refl _
    | some next =>
      refine Refines.bind (Refines.refl _) fun outline => ?_
      refine Refines.bind (Refines.refl _) fun here => ?_
      dsimp only
      split
      · exact Refines.refl _
      · split
        · exact Refines.refl _
        · exact ih (by omega) _ _

namespace ScopeGraph

/-- Work that is done with more budget. -/
def largerBudget : Simulation (Except Fault) Unit where
  related x y := Refines x (y ())
  pure a := Refines.refl (.ok a)
  lift e := Refines.refl e
  bind hx hf := Refines.bind hx hf

variable (g : ScopeGraph)

theorem withBudget_alike (n k : Nat) : (g.withBudget n).Alike (g.withBudget k) := ⟨rfl, rfl, rfl⟩

theorem resolveTo_refines {n k d e : Nat} (hn : n ≤ k) (hd : d ≤ e) (t : CType) :
    Refines ((g.withBudget n).resolveTo .never d t) ((g.withBudget k).resolveTo .never e t) := by
  induction d generalizing e t with
  | zero => exact Or.inl rfl
  | succ d ih =>
    obtain ⟨e, rfl⟩ : ∃ j, e = j + 1 := ⟨e - 1, by omega⟩
    have hr : ∀ u, largerBudget.related ((g.withBudget n).resolveTo .never d u)
        fun _ => (g.withBudget k).resolveTo .never e u := fun u => ih (by omega) u
    have hc := largerBudget.chase (fun u => largerBudget.map (·.type)
      (largerBudget.expandStep (fun _ => g.withBudget_alike n k) hr u)) (n + 1) [] t
    exact Refines.trans hc (chase_refines _ (Nat.succ_le_succ hn) [] t)

theorem resolveVia_refines {n k : Nat} (h : n ≤ k) (t : CType) :
    Refines ((g.withBudget n).resolveVia .never t) ((g.withBudget k).resolveVia .never t) :=
  g.resolveTo_refines h h t

theorem lookupSymbolVia_refines {n k : Nat} (h : n ≤ k) (name : Text) :
    Refines ((g.withBudget n).lookupSymbolVia .never name)
      ((g.withBudget k).lookupSymbolVia .never name) :=
  largerBudget.lookupSymbolVia (k := fun _ => g.withBudget k) (u := .never)
    (fun _ => g.withBudget_alike n k) (fun t => g.resolveVia_refines h t) name

theorem qualifyValueFrom_refines {n k b b' : Nat} (h : n ≤ k) (hb : b ≤ b') (seen : List Text)
    (value : Text) :
    Refines ((g.withBudget n).qualifyValueFrom .never b seen value)
      ((g.withBudget k).qualifyValueFrom .never b' seen value) := by
  induction b generalizing b' seen value with
  | zero => exact Or.inl rfl
  | succ b ih =>
    obtain ⟨b', rfl⟩ : ∃ j, b' = j + 1 := ⟨b' - 1, by omega⟩
    have hb' : b ≤ b' := by omega
    simp only [qualifyValueFrom, nameOf_eq_of_scopes (g.withBudget_alike n k).scopes]
    split
    · exact Refines.refl _
    · refine Refines.bind (g.lookupSymbolVia_refines h value) fun found => ?_
      rcases found with _ | ⟨_ | other | _, id⟩
      · exact Refines.refl _
      · dsimp only
        split
        · exact Refines.refl _
        · exact ih hb' _ _
      · exact ih hb' _ _
      · exact Refines.refl _

theorem qualifyVia_refines {n k : Nat} (h : n ≤ k) (t : CType) :
    Refines ((g.withBudget n).qualifyVia .never t) ((g.withBudget k).qualifyVia .never t) :=
  largerBudget.qualifyVia (k := fun _ => g.withBudget k) (fun _ => g.withBudget_alike n k)
    (fun v => g.qualifyValueFrom_refines h (Nat.succ_le_succ h) [] v) (fun _ _ hx => hx) t

end ScopeGraph

end BindingTypes
