import BindingTypes.Proofs.CType.Mentions
import BindingTypes.Proofs.CType.Renaming
import BindingTypes.Proofs.Scope.Elementwise

namespace BindingTypes

namespace CType

variable {t x : Text}

theorem parameterWithin_of_parameter (h : parameter t = .ok x) :
    parameterWithin t = .ok ⟨x, length_lt_of_parameter h⟩ := by
  unfold parameterWithin
  split
  · rename_i f hf
    cases hf.symm.trans h
  · rename_i p hp
    cases hp.symm.trans h
    rfl

theorem parameter_written {c : Char} (hc : c ≠ '.' ∧ c ≠ '(' ∧ c ≠ ')' ∧ c ≠ '<' ∧ c ≠ '>')
    (hx : Balanced x) : parameter (written c x) = .ok x := by
  have hnext : next (written c x) = .ok (written c x, []) := by
    have hcut := (dotted_written hc hx).cut []
    rw [List.append_nil] at hcut
    exact next_eq_ok_iff.mpr hcut
  have hfirst : first (written c x) = .ok (written c x) := by
    rw [first, hnext]
    rfl
  have hargument : argument (written c x) = .ok x := by
    unfold argument
    rw [group?_written hc.2.1 hx]
    rfl
  unfold parameter
  rw [hfirst]
  exact hargument

end CType

namespace ScopeGraph

open CType

variable {g : ScopeGraph} {resolve : CType → Except Fault CType} {c : Constructor}
  {t b d e f x : Text} {fs before after ps : List Text}

section Elements

theorem isSimple_written {letter : Char} (hletter : letter ≠ '<') (hx : '<' ∉ x) :
    isSimple (written letter x) = false :=
  simpleFrom_of_dot (by simp [written]) (by simp [written, hx, hletter.symm])

/-- A constructor that names no type has nothing to expand. -/
theorem expandType_nameless (hc : c.IsNameless) : g.expandType resolve c.text = .ok none := by
  have hsimple : isSimple c.text = false := by
    have h := hc.isSimple []
    rwa [List.append_nil] at h
  have hfunction : isFunction c.text = false := by
    cases c <;> first | rfl | cases hc
  have hmember : isMemberPointer c.text = false := by
    cases c <;> first | rfl | cases hc
  rw [expandType_single hc.dotted.single, expandBase, hsimple, hfunction, hmember]
  rfl

/-- A member pointer expands where its class does. -/
theorem expandType_memberPointer (hx : Balanced x) (hless : '<' ∉ x) :
    g.expandType resolve (written 'm' x) =
      (g.expandType resolve x).map fun r => r.map (written 'm') := by
  have hd : Dotted (written 'm' x) := dotted_written (by decide) hx
  have hfunction : isFunction (written 'm' x) = false := rfl
  have hmember : isMemberPointer (written 'm' x) = true := Text.startsWith_iff.mpr ⟨_, rfl⟩
  have hwithin := parameterWithin_of_parameter (parameter_written (c := 'm') (by decide) hx)
  rw [expandType_single hd.single, expandBase, isSimple_written (by decide) hless, hfunction,
    hmember]
  show (·.type) <$> (liftM (parameterWithin (written 'm' x)) >>= _ : Except Fault Step) = _
  rw [hwithin]
  show (·.type) <$> (g.expandType resolve x >>= _ : Except Fault Step) = _
  cases g.expandType resolve x <;> rfl

theorem expandFirst_none {k : Nat} {l : List { p : CType // p.length < k }}
    (h : ∀ p ∈ l, g.expandType resolve p.1 = .ok none) :
    expandFirst (fun p => g.expandType resolve p.1) l = .ok none := by
  induction l with
  | nil => rfl
  | cons p l ih =>
    obtain ⟨hp, hl⟩ := List.forall_mem_cons.mp h
    unfold expandFirst
    rw [hp]
    show (expandFirst _ l >>= _ : Except Fault (Option (List CType))) = _
    rw [ih hl]
    rfl

theorem expandFirst_some {k : Nat} {l : List { p : CType // p.length < k }}
    (hl : l.map (·.1) = before ++ x :: after)
    (hbefore : ∀ p ∈ before, g.expandType resolve p = .ok none)
    (hx : g.expandType resolve x = .ok (some e)) :
    expandFirst (fun p => g.expandType resolve p.1) l = .ok (some (before ++ e :: after)) := by
  induction before generalizing l with
  | nil =>
    obtain ⟨p, l, rfl, rfl, rfl⟩ := List.map_eq_cons_iff.mp hl
    unfold expandFirst
    rw [hx]
    rfl
  | cons q before ih =>
    obtain ⟨p, l, rfl, rfl, hrest⟩ := List.map_eq_cons_iff.mp hl
    obtain ⟨hp, hbefore⟩ := List.forall_mem_cons.mp hbefore
    unfold expandFirst
    rw [hp]
    show (expandFirst _ l >>= _ : Except Fault (Option (List CType))) = _
    rw [ih hrest hbefore]
    rfl

variable (g resolve) in
/-- A function expands where its parameters are expanded one by one. -/
theorem expandType_function_eq (hps : ∀ p ∈ ps, Listable p) (hne : ∀ p ∈ ps, p ≠ [])
    (hless : ∀ p ∈ ps, '<' ∉ p) :
    ∃ (k : Nat) (l : List { p : CType // p.length < k }), l.map (·.1) = ps ∧
      g.expandType resolve (written 'f' (Text.commaJoin ps)) =
        (expandFirst (fun p => g.expandType resolve p.1) l).map fun r =>
          r.map fun qs => written 'f' (Text.commaJoin qs) := by
  have hx : Balanced (Text.commaJoin ps) := balanced_commaJoin fun p hp => (hps p hp).balanced
  have hd : Dotted (written 'f' (Text.commaJoin ps)) := dotted_written (by decide) hx
  have hsimple : isSimple (written 'f' (Text.commaJoin ps)) = false :=
    isSimple_written (by decide) (notMem_commaJoin (by decide) hless)
  have hfunction : isFunction (written 'f' (Text.commaJoin ps)) = true :=
    Text.startsWith_iff.mpr ⟨_, rfl⟩
  have harguments : arguments (written 'f' (Text.commaJoin ps)) = .ok ps := by
    rw [arguments_written (by decide) hx, listed_commaJoin hps hne]
  obtain ⟨l, hl, hmap⟩ := argumentsWithin_of_arguments harguments
  refine ⟨_, l, hmap, ?_⟩
  rw [expandType_single hd.single, expandBase, hsimple, hfunction]
  show (·.type) <$> (liftM (argumentsWithin (written 'f' (Text.commaJoin ps))) >>= _ :
    Except Fault Step) = _
  rw [hl]
  show (·.type) <$> (expandFirst _ l >>= _ : Except Fault Step) = _
  cases expandFirst (fun p => g.expandType resolve p.1) l <;> rfl

theorem expandType_function_none (hps : ∀ p ∈ ps, Listable p) (hne : ∀ p ∈ ps, p ≠ [])
    (hless : ∀ p ∈ ps, '<' ∉ p) (h : ∀ p ∈ ps, g.expandType resolve p = .ok none) :
    g.expandType resolve (written 'f' (Text.commaJoin ps)) = .ok none := by
  obtain ⟨k, l, rfl, heq⟩ := expandType_function_eq g resolve hps hne hless
  rw [heq, expandFirst_none (List.forall_mem_map.mp h)]
  rfl

/-- The first parameter that expands is replaced. -/
theorem expandType_function_some (before after : List Text)
    (hps : ∀ p ∈ before ++ x :: after, Listable p)
    (hne : ∀ p ∈ before ++ x :: after, p ≠ []) (hless : ∀ p ∈ before ++ x :: after, '<' ∉ p)
    (hbefore : ∀ p ∈ before, g.expandType resolve p = .ok none)
    (hx : g.expandType resolve x = .ok (some e)) :
    g.expandType resolve (written 'f' (Text.commaJoin (before ++ x :: after))) =
      .ok (some (written 'f' (Text.commaJoin (before ++ e :: after)))) := by
  obtain ⟨k, l, hl, heq⟩ := expandType_function_eq g resolve hps hne hless
  rw [heq, expandFirst_some hl hbefore hx]
  rfl

end Elements

section Chains

variable (hnil : g.expandType resolve [] = .ok none)
include hnil

/-- Constructors that name no type have nothing to expand together either. -/
theorem expandType_of_not_has (hfs : ∀ f ∈ fs, IsFront f)
    (hhas : (Text.has fs.flatten "f(".toList || Text.has fs.flatten "m(".toList) = false) :
    g.expandType resolve fs.flatten = .ok none := by
  rcases List.eq_nil_or_concat fs with rfl | ⟨gs, d, rfl⟩
  · exact hnil
  · rw [List.concat_eq_append] at hfs hhas ⊢
    rw [List.flatten_append, List.flatten_singleton] at hhas ⊢
    obtain ⟨hf, hm⟩ := Bool.or_eq_false_iff.mp hhas
    have hgs : ∀ f ∈ gs, IsFront f := fun f hf => hfs f (List.mem_append_left _ hf)
    have hwithin : ∀ {u needle : Text}, u <:+: gs.flatten ++ d → Text.has (gs.flatten ++ d) needle =
        false → Text.has u needle = false := by
      intro u needle hu hno
      rw [Bool.eq_false_iff] at hno ⊢
      exact fun hyes => hno (Text.has_iff.mpr ((Text.has_iff.mp hyes).trans hu))
    have hopens : ∀ {letter : Char} {x : Text}, Text.has (written letter x) [letter, '('] = true :=
      Text.has_iff.mpr ⟨[], _, rfl⟩
    have hd : g.expandType resolve d = .ok none := by
      cases hfs d (List.mem_append_right _ List.mem_cons_self) with
      | nameless hc => exact expandType_nameless hc
      | @function x hx =>
        have hno := hwithin (List.suffix_append _ _).isInfix hf
        cases hno.symm.trans hopens
      | @memberPointer x hx =>
        have hno := hwithin (List.suffix_append _ _).isInfix hm
        cases hno.symm.trans hopens
    have hrest := hwithin (List.prefix_append _ _).isInfix hf
    have hrest' := hwithin (List.prefix_append _ _).isInfix hm
    have hsingle := (hfs d (List.mem_append_right _ List.mem_cons_self)).dotted.single
    rw [expandType_front (fun f hf => (hgs f hf).dotted) hsingle, hd, hrest, hrest']
    rfl

/-- What stands in front of a base is expanded where the base is not, as if it stood alone. -/
theorem expandType_behind (hfs : ∀ f ∈ fs, IsFront f) (hb : elements b = .ok [b]) :
    g.expandType resolve (fs.flatten ++ b) = g.expandType resolve b >>= fun r =>
      r.elim ((g.expandType resolve fs.flatten).map fun x => x.map (· ++ b))
        fun e => .ok (some (fs.flatten ++ e)) := by
  rw [expandType_front (fun f hf => (hfs f hf).dotted) hb]
  refine bind_congr fun r => ?_
  cases r with
  | some e => rfl
  | none =>
    show (if _ then _ else _ : Except Fault (Option CType)) =
      (g.expandType resolve fs.flatten).map _
    split
    · rfl
    · rename_i hhas
      rw [expandType_of_not_has hnil hfs (by simpa using hhas)]
      rfl

/-- An element in front is expanded where nothing behind it is. -/
theorem expandType_under (hf : IsFront f) (ht : Composed t fs b) (hfs : ∀ f ∈ fs, IsFront f) :
    g.expandType resolve (f ++ t) = g.expandType resolve t >>= fun r =>
      r.elim ((g.expandType resolve f).map fun x => x.map (· ++ t))
        fun e => .ok (some (f ++ e)) := by
  obtain ⟨rfl, -, hb, -⟩ := ht
  -- Behind a base that is spent, what stands in front is expanded like a type of its own, with its
  -- last element as the base: the induction takes that element off.
  induction fs using List.reverseRecOn generalizing b with
  | nil =>
    have hone := expandType_behind hnil
      (List.forall_mem_singleton.mpr hf) hb
    simpa using hone
  | append_singleton fs d ih =>
    obtain ⟨hfs, hd⟩ := List.forall_mem_append.mp hfs
    have hdotted := (hd d List.mem_cons_self).dotted
    have hshorter := ih hfs hdotted.single
    have hwhole := expandType_behind hnil
      (List.forall_mem_append.mpr ⟨hfs, hd⟩) hb
    have hlonger := expandType_behind hnil
      (List.forall_mem_cons.mpr ⟨hf, List.forall_mem_append.mpr ⟨hfs, hd⟩⟩) hb
    rw [List.flatten_cons, List.append_assoc] at hlonger
    rw [hlonger, hwhole]
    rw [List.flatten_append, List.flatten_singleton] at *
    rw [hshorter]
    cases g.expandType resolve b with
    | error fault => rfl
    | ok r =>
      cases r with
      | some e => simp [bind, Except.bind]
      | none =>
        cases g.expandType resolve (fs.flatten ++ d) with
        | error fault => rfl
        | ok r =>
          cases r with
          | some e => simp [bind, Except.bind, Except.map]
          | none =>
            cases g.expandType resolve f with
            | error fault => rfl
            | ok r => cases r <;> simp [bind, Except.bind, Except.map]

end Chains

end ScopeGraph

end BindingTypes
