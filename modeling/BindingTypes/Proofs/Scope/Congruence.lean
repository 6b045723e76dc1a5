import BindingTypes.Proofs.CType.Nameless
import BindingTypes.Proofs.Scope.Edit
import BindingTypes.Proofs.Scope.Replacement

namespace BindingTypes

namespace Remembering

variable {α β : Type} {x : Remembering α} {P : α → Prop} {Q : β → Prop}

theorem lift_ok_bind (a : α) (f : α → Remembering β) :
    ((liftM (.ok a : Except Fault α) : Remembering α) >>= f) = f a := rfl

theorem lift_error_bind (fault : Fault) (f : α → Remembering β) :
    ((liftM (.error fault : Except Fault α) : Remembering α) >>= f) = fault.raise := rfl

theorem lift_map (f : α → β) (e : Except Fault α) :
    (liftM (e.map f) : Remembering β) = f <$> (liftM e : Remembering α) := by
  cases e <;> rfl

theorem map_raise (fault : Fault) (f : α → β) :
    (f <$> (fault.raise : Remembering α)) = fault.raise := rfl

theorem afresh_map (f : α → β) (x : Remembering α) : afresh (f <$> x) = (afresh x).map f := by
  unfold afresh
  rw [StateT.run_map]
  cases x.run {} <;> rfl

/-- Whatever the work ends with has the property. -/
def Gives (x : Remembering α) (P : α → Prop) : Prop := ∀ s a s', x.run s = .ok (a, s') → P a

theorem Gives.bind {f : α → Remembering β} (hx : x.Gives P) (hf : ∀ a, P a → (f a).Gives Q) :
    Gives (x >>= f) Q := by
  intro s b s' h
  obtain ⟨a, s₁, ha, hb⟩ := ScopeGraph.run_bind_eq_ok h
  exact hf a (hx s a s₁ ha) s₁ b s' hb

theorem gives_pure {a : α} (h : P a) : Gives (pure a) P := by
  intro s b s' hb
  obtain ⟨rfl, -⟩ := ScopeGraph.run_pure_eq_ok hb
  exact h

theorem Gives.map {f : α → β} (hx : x.Gives P) (hf : ∀ a, P a → Q (f a)) : Gives (f <$> x) Q := by
  rw [← bind_pure_comp]
  exact hx.bind fun a ha => gives_pure (hf a ha)

theorem gives_any (x : Remembering α) : x.Gives fun _ => True := fun _ _ _ _ => trivial

/-- Work may go on differently where it never arrives. -/
theorem Gives.bind_congr {f k : α → Remembering β} (hx : x.Gives P) (h : ∀ a, P a → f a = k a) :
    x >>= f = x >>= k := by
  refine StateT.ext fun s => ?_
  rw [StateT.run_bind, StateT.run_bind]
  cases hr : x.run s with
  | error fault => rfl
  | ok r =>
    show (f r.1).run r.2 = (k r.1).run r.2
    rw [h r.1 (hx s r.1 r.2 hr)]

end Remembering

namespace ScopeGraph

open CType Remembering

/-- No typedef stands for the empty type. -/
def TargetsNonempty (g : ScopeGraph) : Prop :=
  ∀ id name entry, (g.scope id).typedefs.get? name = some entry → entry.type ≠ []

variable {g : ScopeGraph} {resolve : CType → Remembering CType} {b t inFront : CType}
  {cs : List Constructor}

section Nonempty

variable (hg : g.TargetsNonempty)
include hg

theorem gives_lookupName (start : ScopeId) (name : Text) :
    Gives (g.lookupName resolve start name) fun answer =>
      ∀ u id, answer = some (some (u, id)) → u ≠ [] := by
  unfold lookupName
  split
  · rename_i entry hentry
    refine gives_pure ?_
    intro u id h
    cases h
    exact hg start name entry hentry
  · split
    · rename_i scope last hsplit
      refine (gives_any (g.findScopeFrom resolve start scope)).bind fun target _ => ?_
      cases target with
      | none => exact gives_pure (fun u id h => by cases h)
      | some target =>
        refine gives_pure ?_
        intro u id h
        obtain ⟨⟨entry, holder⟩, hhit, hu⟩ := Option.map_eq_some_iff.mp (Option.some.inj h)
        cases hu
        have hne := hg holder last entry (get?_of_lookup hhit)
        unfold qualifyExpansion
        split
        · rw [nameIn, QualifiedName.within]
          split
          · exact hne
          · simp
        · exact hne
    · refine gives_pure ?_
      intro u id h
      obtain ⟨⟨entry, holder⟩, hhit, hu⟩ := Option.map_eq_some_iff.mp (Option.some.inj h)
      cases hu
      exact hg holder name entry (get?_of_lookup hhit)

theorem gives_expandName (start : ScopeId) (name : CType)
    (expand : { p : CType // p.length < name.length } → Remembering (Option CType)) :
    Gives (g.expandName resolve start name expand) fun step => ∀ x ∈ step.type, x ≠ [] := by
  have hnone : ∀ x ∈ (none : Option CType), x ≠ [] := fun x hx => by cases hx
  unfold expandName
  refine (gives_lookupName hg start name).bind fun answer hanswer => ?_
  split
  · exact gives_pure hnone
  · rename_i found holder
    refine gives_pure ?_
    intro x hx
    split at hx
    · cases hx
    · cases hx
      exact hanswer _ _ rfl
  · refine (gives_any (liftM (templateWithin name))).bind fun parts _ => ?_
    split
    · exact gives_pure hnone
    · rename_i parts
      refine (gives_any (expandFirst expand parts.arguments)).bind fun args _ => gives_pure ?_
      intro x hx
      obtain ⟨as, -, rfl⟩ := Option.map_eq_some_iff.mp hx
      simp [angled]

theorem gives_expandBase (b : CType)
    (expand : { p : CType // p.length < b.length } → Remembering (Option CType)) :
    Gives (g.expandBase resolve b expand) fun step => ∀ x ∈ step.type, x ≠ [] := by
  unfold expandBase
  split
  · split
    · exact gives_expandName hg _ _ _
    · exact gives_expandName hg _ _ _
  · split
    · refine (gives_any (liftM (argumentsWithin b))).bind fun parameters _ => ?_
      refine (gives_any (expandFirst expand parameters)).bind fun args _ => gives_pure ?_
      intro x hx
      obtain ⟨ps, -, rfl⟩ := Option.map_eq_some_iff.mp hx
      simp [written]
    · split
      · refine (gives_any (liftM (parameterWithin b))).bind fun owner _ => ?_
        refine (gives_any (expand owner)).bind fun expanded _ => gives_pure ?_
        intro x hx
        obtain ⟨o, -, rfl⟩ := Option.map_eq_some_iff.mp hx
        simp [written]
      · exact gives_pure (fun x hx => by cases hx)

end Nonempty

theorem expandStep_eq_bind (hs : split t = .ok (inFront, b)) :
    g.expandStep resolve t =
      (g.expandBase resolve b fun p => (·.type) <$> g.expandStep resolve p.1) >>= fun found =>
        match found.type with
        | some expanded => pure { found with type := some (inFront ++ expanded) }
        | none =>
          if inFront.has "f(".toList || inFront.has "m(".toList then
            (fun step => { found with type := step.type.map (· ++ b) }) <$>
              g.expandStep resolve inFront
          else pure found := by
  rw [expandStep]
  simp only [splitWithin_of_split hs, lift_ok_bind]
  refine bind_congr fun found => ?_
  obtain ⟨type, scope⟩ := found
  cases type with
  | some expanded => rfl
  | none =>
    by_cases hf : inFront = []
    · subst hf
      rfl
    · rw [dif_pos hf, ← bind_pure_comp]

theorem expandStep_eq_raise {fault : Fault} (hs : split t = .error fault) :
    g.expandStep resolve t = fault.raise := by
  have hwithin : splitWithin t = .error fault := by
    unfold splitWithin
    split <;> simp_all
  rw [expandStep, hwithin, lift_error_bind]

/-- What an expansion gives is never empty. -/
theorem gives_expandStep (hg : g.TargetsNonempty) (ht : t ≠ []) :
    Gives (g.expandStep resolve t) fun step => ∀ x ∈ step.type, x ≠ [] := by
  cases hs : split t with
  | error fault =>
    rw [expandStep_eq_raise hs]
    intro s a s' h
    cases h
  | ok parts =>
    obtain ⟨inFront, b⟩ := parts
    have hb : b ≠ [] := split_base_ne_nil hs ht
    rw [expandStep_eq_bind hs]
    refine (gives_expandBase hg b _).bind fun found hfound => ?_
    split
    · rename_i expanded hexpanded
      refine gives_pure ?_
      intro x hx
      cases hx
      have hne := hfound expanded hexpanded
      simp [hne]
    · split
      · refine (gives_any (g.expandStep resolve inFront)).map fun step _ => ?_
        intro x hx
        obtain ⟨y, -, rfl⟩ := Option.map_eq_some_iff.mp hx
        simp [hb]
      · exact gives_pure hfound

/-- A step goes past constructors that name no type. -/
theorem expandStep_chain (hcs : ∀ c ∈ cs, c.IsNameless) (ht : t ≠ []) :
    g.expandStep resolve (chain cs t) =
      (fun step => { step with type := step.type.map (chain cs) }) <$>
        g.expandStep resolve t := by
  induction hn : t.length using Nat.strongRecOn generalizing t with
  | ind n ih =>
    have hsplit := split_nameless hcs ht
    cases hs : split t with
    | error fault =>
      rw [hs] at hsplit
      rw [expandStep_eq_raise hsplit, expandStep_eq_raise hs, map_raise]
    | ok parts =>
      obtain ⟨inFront, b⟩ := parts
      rw [hs] at hsplit
      have hf : Text.has (chain cs inFront) "f(".toList = Text.has inFront "f(".toList :=
        has_chain hcs (Or.inl rfl) inFront
      have hm : Text.has (chain cs inFront) "m(".toList = Text.has inFront "m(".toList :=
        has_chain hcs (Or.inr rfl) inFront
      rw [expandStep_eq_bind hsplit, expandStep_eq_bind hs, map_bind, hf, hm]
      refine bind_congr fun found => ?_
      obtain ⟨type, scope⟩ := found
      cases type with
      | some expanded =>
        show pure (⟨some (chain cs inFront ++ expanded), scope⟩ : Step) =
          pure ⟨some (chain cs (inFront ++ expanded)), scope⟩
        rw [chain_append_right]
      | none =>
        by_cases hhas : (Text.has inFront "f(".toList || Text.has inFront "m(".toList) = true
        · have hne : inFront ≠ [] := by
            rintro rfl
            cases hhas
          have hlt : inFront.length < n := hn ▸ (split_lengths hs).2 hne
          have hinner := ih inFront.length hlt hne rfl
          have hmap : ∀ type : Option CType, (type.map (chain cs)).map (· ++ b) =
              (type.map (· ++ b)).map (chain cs) := by
            intro type
            cases type with
            | none => rfl
            | some x => exact congrArg some (chain_append_right cs x b).symm
          simp only [if_pos hhas, hinner, Functor.map_map, hmap]
        · simp only [if_neg hhas]
          rfl

theorem chase_chain {step : CType → Remembering (Option CType)} (hcs : ∀ c ∈ cs, c.IsNameless)
    (hstep : ∀ t, t ≠ [] → step (chain cs t) = Option.map (chain cs) <$> step t)
    (hne : ∀ t, t ≠ [] → Gives (step t) fun answer => ∀ x ∈ answer, x ≠ []) (n : Nat)
    (seen : List Outline) (ht : t ≠ []) :
    Resolver.chase step n (seen.map (Outline.behind cs)) (chain cs t) =
      chain cs <$> Resolver.chase step n seen t := by
  induction n generalizing seen t with
  | zero => rfl
  | succ n ih =>
    rw [Resolver.chase, Resolver.chase, hstep t ht, bind_map_left, map_bind]
    refine (hne t ht).bind_congr fun answer hanswer => ?_
    cases answer with
    | none => rfl
    | some next =>
      have hnext : next ≠ [] := hanswer next rfl
      rw [Option.map_some]
      simp only [outline_nameless hcs hnext, outline_nameless hcs ht, lift_map, bind_map_left,
        map_bind]
      refine bind_congr fun o => bind_congr fun earlier => ?_
      have hwraps : ((earlier :: seen).map (Outline.behind cs)).any (o.behind cs).wraps =
          (earlier :: seen).any o.wraps := by
        rw [List.any_map]
        exact congrArg _ (funext fun inner => wraps_behind cs o inner)
      have hsame : ((earlier :: seen).map (Outline.behind cs)).any
            (fun e => e.whole.same (o.behind cs).whole) =
          (earlier :: seen).any fun e => e.whole.same o.whole := by
        rw [List.any_map]
        exact congrArg _ (funext fun inner => same_behind cs inner o)
      rw [← List.map_cons, hwraps, hsame]
      split
      · rfl
      · split
        · rfl
        · exact ih (earlier :: seen) hnext

theorem afresh_resolved (t : CType) (work : Remembering CType) :
    afresh (Reuse.always.resolved g t work) = afresh work := by
  have hempty := Answers.get?_empty g t
  have hkept := Reuse.kept_resolved g t work
  unfold afresh
  cases hr : work.run {} with
  | error fault => rw [hkept.failed _ _ hempty hr]
  | ok r =>
    rw [hkept.new _ _ _ hempty hr]
    rfl

/-- Resolution goes past constructors that name no type. -/
theorem resolve_chain (hg : g.TargetsNonempty) (hcs : ∀ c ∈ cs, c.IsNameless) (ht : t ≠ []) :
    g.resolve (chain cs t) = (g.resolve t).map (chain cs) := by
  unfold resolve resolveVia
  cases g.budget with
  | zero => rfl
  | succ n =>
    let step : CType → Remembering (Option CType) :=
      fun u => (·.type) <$> g.expandStep (g.resolveTo .always n) u
    have hstep : ∀ u, u ≠ [] → step (chain cs u) = Option.map (chain cs) <$> step u := by
      intro u hu
      simp only [step, expandStep_chain hcs hu, Functor.map_map]
    have hne : ∀ u, u ≠ [] → Gives (step u) fun answer => ∀ x ∈ answer, x ≠ [] :=
      fun u hu => (gives_expandStep hg hu).map fun found hfound => hfound
    have hchase := chase_chain hcs hstep hne (g.budget + 1) [] ht
    rw [List.map_nil] at hchase
    rw [resolveTo, resolveTo, afresh_resolved, afresh_resolved, hchase, afresh_map]

/-- A reference and a pointer to one type share a runtime name, and a qualifier is no part of one,
neither in front of a type nor behind further constructors. Where the name of one type ends with a
fault, that of the other ends with the same. -/
theorem runtime_names_merge (hg : g.TargetsNonempty) (ht : t ≠ []) (hcs : ∀ c ∈ cs, c.IsNameless)
    {words : Text} (hw : Unbracketed words) :
    runtimeName g.resolver (chain [.reference] t) = runtimeName g.resolver (chain [.pointer] t) ∧
    runtimeName g.resolver (chain [.qualifier words] t) = runtimeName g.resolver t ∧
    runtimeName g.resolver (chain (cs ++ [.qualifier words]) t) =
      runtimeName g.resolver (chain cs t) := by
  have hresolve : ∀ ds : List Constructor, (∀ c ∈ ds, c.IsNameless) →
      g.resolver.resolve (chain ds t) = (g.resolver.resolve t).map (chain ds) :=
    fun ds hds => resolve_chain hg hds ht
  have hqualifier : ∀ c ∈ [Constructor.qualifier words], c.IsNameless :=
    List.forall_mem_singleton.mpr hw
  have hlocal : ∀ ds : List Constructor, (∀ c ∈ ds, c.IsNameless) → ∀ y,
      localType g.resolver (chain (ds ++ [.qualifier words]) y) =
        localType g.resolver (chain ds y) := by
    intro ds hds y
    rw [chain_append, chain_cons, chain_nil]
    exact localType_chain_qualifier hds hw y
  have hall : ∀ ds : List Constructor, (∀ c ∈ ds, c.IsNameless) →
      runtimeName g.resolver (chain (ds ++ [.qualifier words]) t) =
        runtimeName g.resolver (chain ds t) := by
    intro ds hds
    have hboth : ∀ c ∈ ds ++ [.qualifier words], c.IsNameless :=
      List.forall_mem_append.mpr ⟨hds, hqualifier⟩
    exact runtimeName_of_localType (hresolve _ hboth) (hresolve _ hds) (hlocal ds hds)
  refine ⟨?_, hall [] (List.forall_mem_nil _), hall cs hcs⟩
  have hreference : ∀ c ∈ [Constructor.reference], c.IsNameless :=
    List.forall_mem_singleton.mpr trivial
  have hpointer : ∀ c ∈ [Constructor.pointer], c.IsNameless :=
    List.forall_mem_singleton.mpr trivial
  refine runtimeName_of_localType (hresolve _ hreference) (hresolve _ hpointer) fun y => ?_
  rw [chain_cons, chain_cons, chain_nil]
  exact localType_reference y

/-- Names of types in front of a typedef for an array of constants. -/
theorem runtime_names_of_constants : ∃ g : ScopeGraph, g.TargetsNonempty ∧
    g.expand? "T".toList = .ok (some "a(3).q(const).int".toList) ∧
    runtimeName g.resolver "r.T".toList = .ok "_p_a_3__int".toList ∧
    runtimeName g.resolver "q(volatile).T".toList = .ok "_p_int".toList ∧
    runtimeName g.resolver "a(10).p.q(volatile).T".toList = .ok "_p_p_a_3__int".toList := by
  let g := (new 9).insertTypedef globalScope "T".toList ⟨"a(3).q(const).int".toList, false⟩
  have hg : g.TargetsNonempty := by
    have hreadable : g.Readable := (readable_new 9).insertTypedef (by decide) (by decide)
    exact fun id name entry h => ((hreadable id).types name entry h).2
  have hw : Unbracketed "volatile".toList := (IsIdentifier.isWord (by decide)).unbracketed
  have hten : Unbracketed "10".toList := (IsIdentifier.isWord (by decide)).unbracketed
  have hcs : ∀ c ∈ [Constructor.array "10".toList, .pointer], c.IsNameless :=
    List.forall_mem_cons.mpr ⟨hten, List.forall_mem_singleton.mpr trivial⟩
  obtain ⟨hreference, hqualifier, hchain⟩ :=
    runtime_names_merge (t := "T".toList) hg (by decide) hcs hw
  refine ⟨g, hg, by decide +kernel, ?_, ?_, ?_⟩
  · refine Eq.trans hreference ?_
    decide +kernel
  · refine Eq.trans hqualifier ?_
    decide +kernel
  · refine Eq.trans hchain ?_
    decide +kernel

end ScopeGraph

end BindingTypes
