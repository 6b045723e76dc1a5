import BindingTypes.Proofs.Scope.Alike

namespace BindingTypes

/-- A relation between the computations of a monad and families of plain computations, which
everything that programs are built from keeps. -/
structure Simulation (m : Type → Type) [Monad m] [MonadLiftT (Except Fault) m] (ι : Type) where
  related : {α : Type} → m α → (ι → Except Fault α) → Prop
  pure : {α : Type} → (a : α) → related (Pure.pure a) fun _ => Pure.pure a
  lift : {α : Type} → (e : Except Fault α) → related (liftM e) fun _ => liftM e
  bind : {α β : Type} → {x : m α} → {y : ι → Except Fault α} → {f : α → m β} →
    {h : ι → α → Except Fault β} → related x y → (∀ a, related (f a) fun i => h i a) →
    related (x >>= f) fun i => y i >>= h i

namespace Simulation

open ScopeGraph

variable {m : Type → Type} [Monad m] [MonadLiftT (Except Fault) m] {ι : Type}
variable (S : Simulation m ι)

theorem map [LawfulMonad m] {α β : Type} {x : m α} {y : ι → Except Fault α} (f : α → β) (h : S.related x y) :
    S.related (f <$> x) fun i => f <$> y i := by
  simp only [← bind_pure_comp]
  exact S.bind h fun a => S.pure (f a)

theorem mapM [LawfulMonad m] {α β : Type} {f : α → m β} {h : ι → α → Except Fault β} (l : List α)
    (hf : ∀ a, S.related (f a) fun i => h i a) :
    S.related (l.mapM f) fun i => l.mapM (h i) := by
  induction l with
  | nil =>
    simp only [List.mapM_nil]
    exact S.pure []
  | cons a l ih =>
    simp only [List.mapM_cons]
    exact S.bind (hf a) fun b => S.bind ih fun bs => S.pure (b :: bs)

theorem concatMap [LawfulMonad m] (t : CType) {f : { e : Text // e.length ≤ t.length } → m Text}
    {h : ι → { e : Text // e.length ≤ t.length } → Except Fault Text}
    (hf : ∀ e, S.related (f e) fun i => h i e) :
    S.related (CType.concatMap t f) fun i => CType.concatMap t (h i) := by
  unfold CType.concatMap
  refine S.bind (S.mapM _ hf) fun texts => ?_
  cases (CType.scan t).2 with
  | some fault => exact S.lift _
  | none => exact S.pure _

section Resolution

variable {g : ScopeGraph} {k : ι → ScopeGraph} (hg : ∀ i, g.Alike (k i))
variable {r : CType → m CType} {s : ι → CType → Except Fault CType}
variable (hr : ∀ t, S.related (r t) fun i => s i t)

include hr in
theorem findScopeFrom (hg : ∀ i, g.Alike (k i)) (start : ScopeId) (wanted : Text) :
    S.related (g.findScopeFrom r start wanted)
      fun i => (k i).findScopeFrom (s i) start wanted := by
  simp only [ScopeGraph.findScopeFrom, (hg _).findNamed]
  cases CType.isTemplate wanted with
  | true => exact S.bind (hr wanted) fun plain => S.pure _
  | false => exact S.bind (S.pure wanted) fun plain => S.pure _

theorem expandFirst {n : Nat} {e : { p : CType // p.length < n } → m (Option CType)}
    {d : ι → { p : CType // p.length < n } → Except Fault (Option CType)}
    (he : ∀ p, S.related (e p) fun i => d i p) (ps : List { p : CType // p.length < n }) :
    S.related (ScopeGraph.expandFirst e ps) fun i => ScopeGraph.expandFirst (d i) ps := by
  induction ps with
  | nil => exact S.pure none
  | cons p ps ih =>
    refine S.bind (he p) fun expanded => ?_
    cases expanded with
    | some expanded => exact S.pure _
    | none => exact S.bind ih fun tail => S.pure _

include hg hr in
theorem lookupName (start : ScopeId) (name : Text) :
    S.related (g.lookupName r start name) fun i => (k i).lookupName (s i) start name := by
  simp only [ScopeGraph.lookupName, scope_eq_of_scopes (hg _).scopes,
    lookup_eq_of_scopes (hg _).scopes, qualifyExpansion_eq_of_scopes (hg _).scopes]
  cases (g.scope start).typedefs.get? name with
  | some entry => exact S.pure _
  | none =>
    rcases QualifiedName.split name with ⟨scope, last⟩
    cases scope with
    | none => exact S.pure _
    | some scope =>
      refine S.bind (S.findScopeFrom hr hg start scope) fun target => ?_
      cases target with
      | none => exact S.pure _
      | some target => exact S.pure _

include hg hr in
theorem expandName (start : ScopeId) (name : CType)
    {e : { p : CType // p.length < name.length } → m (Option CType)}
    {d : ι → { p : CType // p.length < name.length } → Except Fault (Option CType)}
    (he : ∀ p, S.related (e p) fun i => d i p) :
    S.related (g.expandName r start name e)
      fun i => (k i).expandName (s i) start name (d i) := by
  refine S.bind (S.lookupName hg hr start name) fun found => ?_
  rcases found with _ | _ | ⟨found, scope⟩
  · exact S.pure _
  · refine S.bind (S.lift _) fun parts => ?_
    cases parts with
    | none => exact S.pure _
    | some parts => exact S.bind (S.expandFirst he parts.arguments) fun args => S.pure _
  · exact S.pure _

include hg hr in
theorem expandBase (base : CType)
    {e : { p : CType // p.length < base.length } → m (Option CType)}
    {d : ι → { p : CType // p.length < base.length } → Except Fault (Option CType)}
    (he : ∀ p, S.related (e p) fun i => d i p) :
    S.related (g.expandBase r base e) fun i => (k i).expandBase (s i) base (d i) := by
  simp only [ScopeGraph.expandBase, (hg _).current]
  split
  · split
    · exact S.expandName hg hr ScopeGraph.globalScope _ fun p => he _
    · exact S.expandName hg hr g.current base he
  · split
    · refine S.bind (S.lift _) fun parameters => ?_
      exact S.bind (S.expandFirst he parameters) fun ps => S.pure _
    · split
      · refine S.bind (S.lift _) fun owner => ?_
        exact S.bind (he owner) fun expanded => S.pure _
      · exact S.pure _

include hg hr in
theorem expandStep [LawfulMonad m] (t : CType) :
    S.related (g.expandStep r t) fun i => (k i).expandStep (s i) t := by
  induction hn : t.length using Nat.strongRecOn generalizing t with
  | ind n ih =>
    have he : ∀ p : CType, p.length < n →
        S.related ((·.type) <$> g.expandStep r p)
          fun i => (·.type) <$> (k i).expandStep (s i) p :=
      fun p hp => S.map _ (ih p.length hp p rfl)
    have hu : (fun i => (k i).expandStep (s i) t) = fun i => _ :=
      funext fun i => ScopeGraph.expandStep.eq_1 (k i) (s i) t
    rw [hu, ScopeGraph.expandStep]
    refine S.bind (S.lift _) fun parts => ?_
    obtain ⟨⟨front, base⟩, bound⟩ := parts
    refine S.bind (S.expandBase hg hr base fun p => he p.1 ?_) fun found => ?_
    · exact hn ▸ Nat.lt_of_lt_of_le p.2 bound.1
    · cases hf : found.type with
      | some expanded => exact S.pure _
      | none =>
        dsimp only
        split
        · rename_i hne
          split
          · exact S.bind (ih _ (hn ▸ bound.2 hne) front rfl) fun inFront => S.pure _
          · exact S.pure _
        · exact S.pure _

end Resolution

theorem chase {e : CType → m (Option CType)} {d : ι → CType → Except Fault (Option CType)}
    (he : ∀ t, S.related (e t) fun i => d i t) (n : Nat) (seen : List CType.Outline) (t : CType) :
    S.related (Resolver.chase e n seen t) fun i => Resolver.chase (d i) n seen t := by
  induction n generalizing seen t with
  | zero => exact S.lift _
  | succ n ih =>
    refine S.bind (he t) fun expanded => ?_
    cases expanded with
    | none => exact S.pure _
    | some next =>
      refine S.bind (S.lift _) fun outline => S.bind (S.lift _) fun here => ?_
      dsimp only
      split
      · exact S.pure _
      · split
        · exact S.pure _
        · exact ih _ _

section Qualification

variable {g : ScopeGraph} {k : ι → ScopeGraph} (hg : ∀ i, g.Alike (k i))
variable {u : Reuse m}
variable (hr : ∀ t, S.related (g.resolveVia u t) fun i => (k i).resolveVia .never t)

include hg hr in
theorem lookupSymbolVia (name : Text) :
    S.related (g.lookupSymbolVia u name)
      fun i => (k i).lookupSymbolVia .never name := by
  simp only [ScopeGraph.lookupSymbolVia, scope_eq_of_scopes (hg _).scopes, (hg _).lookupOwnSymbol]
  rcases QualifiedName.split name with ⟨scope, last⟩
  cases scope with
  | none => exact S.pure _
  | some scope =>
    by_cases hs : scope = []
    · simp only [hs, if_true]
      exact S.bind (S.pure _) fun found => S.pure _
    · simp only [hs, if_false]
      refine S.bind ?_ fun found => S.pure _
      simp only [findScopeVia, (hg _).current]
      exact S.findScopeFrom hr hg g.current scope

include hg hr in
theorem qualifyValueFrom (n : Nat) (seen : List Text) (value : Text) :
    S.related (g.qualifyValueFrom u n seen value)
      fun i => (k i).qualifyValueFrom .never n seen value := by
  induction n generalizing seen value with
  | zero => exact S.lift _
  | succ n ih =>
    simp only [ScopeGraph.qualifyValueFrom, nameOf_eq_of_scopes (hg _).scopes]
    split
    · exact S.pure _
    · refine S.bind (S.lookupSymbolVia hg hr value) fun found => ?_
      rcases found with _ | ⟨_ | other | _, id⟩
      · exact S.pure _
      · dsimp only
        split
        · exact S.pure _
        · exact ih _ _
      · exact ih _ _
      · exact S.pure _

include hg in
theorem qualifyPlain (name : Text) {q : { p : CType // p.length < name.length } → m CType}
    {c : ι → { p : CType // p.length < name.length } → Except Fault CType}
    (hq : ∀ p, S.related (q p) fun i => c i p) :
    S.related (g.qualifyPlain name q) fun i => (k i).qualifyPlain name (c i) := by
  simp only [ScopeGraph.qualifyPlain, (hg _).current, lookup_eq_of_scopes (hg _).scopes,
    nameIn_eq_of_scopes (hg _).scopes, (hg _).qualifyScopeName]
  cases g.lookup g.current name with
  | some hit => exact S.pure _
  | none =>
    dsimp only
    split
    · exact S.bind (hq _) fun scope => S.pure _
    · exact S.pure _

variable (hv : ∀ v, S.related (g.qualifyValue u v) fun i => (k i).qualifyValue .never v)

include hv in
theorem qualifyArgument {n : Nat} {q : { p : CType // p.length < n } → m CType}
    {c : ι → { p : CType // p.length < n } → Except Fault CType}
    (hq : ∀ p, S.related (q p) fun i => c i p) (argument : { p : CType // p.length < n }) :
    S.related (g.qualifyArgument u q argument)
      fun i => (k i).qualifyArgument .never (c i) argument := by
  refine S.bind (hq argument) fun qualified => ?_
  by_cases he : qualified = argument.1
  · simp only [he, if_true]
    exact hv argument.1
  · simp only [he, if_false]
    exact S.pure _

include hg hv in
theorem qualifyName [LawfulMonad m] (name : Text)
    {q : { p : CType // p.length < name.length } → m CType}
    {c : ι → { p : CType // p.length < name.length } → Except Fault CType}
    (hq : ∀ p, S.related (q p) fun i => c i p) :
    S.related (g.qualifyName u name q) fun i => (k i).qualifyName .never name (c i) := by
  refine S.bind (S.lift _) fun parts => ?_
  cases parts with
  | some parts =>
    refine S.bind (hq parts.stem) fun stem => ?_
    exact S.bind (S.mapM _ fun p => S.qualifyArgument hv hq p) fun args => S.pure _
  | none =>
    dsimp only
    split
    · exact S.bind (S.qualifyPlain hg _ fun p => hq _) fun qualified => S.pure _
    · exact S.qualifyPlain hg name hq

include hg hv in
theorem qualifyElement [LawfulMonad m] (element : Text)
    {q : { p : CType // p.length < element.length } → m CType}
    {c : ι → { p : CType // p.length < element.length } → Except Fault CType}
    (hq : ∀ p, S.related (q p) fun i => c i p) :
    S.related (g.qualifyElement u element q)
      fun i => (k i).qualifyElement .never element (c i) := by
  simp only [ScopeGraph.qualifyElement, (hg _).qualifyExpression]
  split
  · exact S.bind (S.qualifyName hg hv element hq) fun qualified => S.pure _
  · split
    · refine S.bind (S.lift _) fun arguments => ?_
      exact S.bind (S.mapM arguments hq) fun qualified => S.pure _
    · split
      · exact S.bind (S.lift _) fun dimension => S.pure _
      · exact S.pure _

include hg hv in
theorem qualifyVia [LawfulMonad m]
    (hq : ∀ t x, S.related x (fun i => (k i).qualifyVia .never t) →
      S.related (u.qualified g t x) fun i => (k i).qualifyVia .never t) (t : CType) :
    S.related (g.qualifyVia u t) fun i => (k i).qualifyVia .never t := by
  induction hl : t.length using Nat.strongRecOn generalizing t with
  | ind n ih =>
    rw [ScopeGraph.qualifyVia]
    refine hq t _ ?_
    have hu : (fun i => (k i).qualifyVia (.never : Reuse (Except Fault)) t) = fun i => _ :=
      funext fun i => ScopeGraph.qualifyVia.eq_1 (k i) .never t
    simp only [hu, Reuse.never_qualified]
    refine S.concatMap t fun e => ?_
    exact S.qualifyElement hg hv e.1 fun p =>
      ih p.1.length (hl ▸ Nat.lt_of_lt_of_le p.2 e.2) p.1 rfl

end Qualification

end Simulation

end BindingTypes
