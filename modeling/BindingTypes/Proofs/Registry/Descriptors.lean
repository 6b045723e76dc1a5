import BindingTypes.Proofs.CType.RenamedElement
import BindingTypes.Proofs.Registry.Remember

namespace BindingTypes

namespace Environment

/-- A marker with what is written in it, and the text up to the next one. -/
structure Passage where
  argument : Text
  after : Text
deriving DecidableEq, Repr

namespace Passage

/-- A marker whose argument closes its parentheses, and a text without a marker. -/
structure Plain (p : Passage) : Prop where
  argument : CType.Balanced p.argument
  after : p.after.has descriptorMarker = false

instance (p : Passage) : Decidable p.Plain :=
  decidable_of_iff (CType.Balanced p.argument ∧ p.after.has descriptorMarker = false)
    ⟨fun h => ⟨h.1, h.2⟩, fun h => ⟨h.argument, h.after⟩⟩

def text (p : Passage) : Text := descriptorMarker ++ p.argument ++ ')' :: p.after

/-- The passage with a runtime name in the place of its marker. -/
def named (descriptor : Text) (p : Passage) (name : Text) : Text := descriptor ++ name ++ p.after

/-- What is written in the marker is the type `t`. -/
def Holds (p : Passage) (t : CType) : Prop := Declaration.parse p.argument.trim = .ok t

instance (p : Passage) (t : CType) : Decidable (p.Holds t) := inferInstanceAs (Decidable (_ = _))

end Passage

/-- A text that begins with `start`, up to its first marker. -/
def marked (start : Text) (ps : List Passage) : Text := start ++ ps.flatMap Passage.text

/-- The text with runtime names in the places of its markers. -/
def replaced (descriptor start : Text) (ps : List Passage) (names : List Text) : Text :=
  start ++ (List.zipWith (Passage.named descriptor) ps names).flatten

/-- The types are accepted one after the other. -/
inductive RemembersAll : Environment → List CType → Environment → Prop
  | nil (env : Environment) : RemembersAll env [] env
  | cons {env env₁ env₂ : Environment} {t : CType} {ts : List CType}
    (head : env.remember t none = .ok (.ok (), env₁)) (tail : RemembersAll env₁ ts env₂) :
    RemembersAll env (t :: ts) env₂

variable {env env₁ env' : Environment} {start descriptor : Text} {p : Passage}
  {ps front back : List Passage} {t : CType} {ts : List CType}

theorem marked_cons (start : Text) (p : Passage) (ps : List Passage) :
    marked start (p :: ps) =
      start ++ (descriptorMarker ++ (p.argument ++ ')' :: marked p.after ps)) := by
  simp [marked, Passage.text]

theorem cut?_marked (hstart : start.has descriptorMarker = false) (p : Passage)
    (ps : List Passage) : (marked start (p :: ps)).cut? descriptorMarker =
      some (start, p.argument ++ ')' :: marked p.after ps) := by
  have hmarker : '$' ∉ "descriptor(".toList := by decide
  rw [marked_cons]
  exact Text.cut?_append hmarker hstart _

theorem replaceDescriptors_plain (hstart : start.has descriptorMarker = false) :
    env.replaceDescriptors start descriptor = .ok (.ok start, env) := by
  have hcut : start.cut? descriptorMarker = none := by
    simpa only [Text.has, Option.isSome_eq_false_iff, Option.isNone_iff_eq_none] using hstart
  rw [replaceDescriptors]
  split
  · rfl
  · rename_i hsome
    cases hcut.symm.trans hsome

/-- The first marker is replaced, and then the others. -/
theorem replaceDescriptors_marked (hstart : start.has descriptorMarker = false)
    (harg : CType.Balanced p.argument) (ps : List Passage) :
    env.replaceDescriptors (marked start (p :: ps)) descriptor = (do
      match ← env.describe p.argument with
      | (.error e, env) => return (.error e, env)
      | (.ok name, env) =>
        let (result, env) ← env.replaceDescriptors (marked p.after ps) descriptor
        return (result.map fun done => start ++ descriptor ++ name ++ done, env)) := by
  have hcut := cut?_marked hstart p ps
  have hclose := CType.closeGroup_of_parensAfter harg (marked p.after ps)
  rw [replaceDescriptors]
  split
  · rename_i hnone
    cases hcut.symm.trans hnone
  · rename_i before opened hsome
    cases hcut.symm.trans hsome
    split
    · rename_i hnone
      cases hclose.symm.trans hnone
    · rename_i argument rest hsome
      cases hclose.symm.trans hsome
      rfl

theorem describe_accepted (hp : p.Holds t) (hr : env.remember t none = .ok (.ok (), env₁)) :
    env.describe p.argument =
      (CType.runtimeName env.graph.resolver t).map fun name => (.ok name, env₁) := by
  unfold describe
  rw [show Declaration.parse p.argument.trim = .ok t from hp]
  dsimp only
  rw [hr]
  cases CType.runtimeName env.graph.resolver t <;> rfl

theorem describe_refused {e : Declaration.DeclarationError}
    (h : Declaration.parse p.argument.trim = .error e) :
    env.describe p.argument = .ok (.error (.badType p.argument e), env) := by
  unfold describe
  rw [h]
  rfl

/-- A marker whose type is accepted: its name comes from the scopes, which stay as they are. -/
theorem replaceDescriptors_accepted (hstart : start.has descriptorMarker = false)
    (harg : CType.Balanced p.argument) (hp : p.Holds t)
    (hr : env.remember t none = .ok (.ok (), env₁)) (ps : List Passage) :
    env.replaceDescriptors (marked start (p :: ps)) descriptor = (do
      let name ← CType.runtimeName env.graph.resolver t
      let (result, env) ← env₁.replaceDescriptors (marked p.after ps) descriptor
      return (result.map fun done => start ++ descriptor ++ name ++ done, env)) := by
  rw [replaceDescriptors_marked hstart harg, describe_accepted hp hr]
  cases CType.runtimeName env.graph.resolver t <;> rfl

theorem replaced_cons (descriptor start : Text) (p : Passage) (ps : List Passage) (name : Text)
    (names : List Text) : replaced descriptor start (p :: ps) (name :: names) =
      start ++ descriptor ++ name ++ replaced descriptor p.after ps names := by
  simp [replaced, Passage.named]

/-- Every marker gets the name that its type has in the beginning. -/
theorem replaceDescriptors_all (hstart : start.has descriptorMarker = false)
    (hplain : ∀ p ∈ ps, p.Plain) (hps : List.Forall₂ Passage.Holds ps ts)
    (hts : env.RemembersAll ts env') :
    env.replaceDescriptors (marked start ps) descriptor =
      (ts.mapM (CType.runtimeName env.graph.resolver)).map fun names =>
        (.ok (replaced descriptor start ps names), env') := by
  induction hps generalizing env start with
  | nil =>
    cases hts
    rw [marked, List.flatMap_nil, List.append_nil, replaceDescriptors_plain hstart]
    simp [replaced, pure, Except.pure, Except.map]
  | @cons p t ps ts hp _ ih =>
    cases hts with
    | cons hr hts =>
      have hhead := hplain p List.mem_cons_self
      have htail := fun q hq => hplain q (List.mem_cons_of_mem p hq)
      rw [replaceDescriptors_accepted hstart hhead.argument hp hr, ih hhead.after htail hts,
        graph_remember hr, List.mapM_cons]
      cases CType.runtimeName env.graph.resolver t with
      | error f => rfl
      | ok name =>
        cases List.mapM (CType.runtimeName env.graph.resolver) ts with
        | error f => rfl
        | ok names =>
          show Except.ok (Except.ok _, env') = Except.ok (Except.ok _, env')
          rw [replaced_cons]

/-- The first marker that cannot be handled ends the work after the types before it. -/
theorem replaceDescriptors_stopped {env'' : Environment} {e : DescriptorError}
    (hstart : start.has descriptorMarker = false) (hplain : ∀ p ∈ front, p.Plain)
    (hfront : List.Forall₂ Passage.Holds front ts) (hts : env.RemembersAll ts env')
    (harg : CType.Balanced p.argument) (hd : env'.describe p.argument = .ok (.error e, env'')) :
    env.replaceDescriptors (marked start (front ++ p :: back)) descriptor =
      (ts.mapM (CType.runtimeName env.graph.resolver)).map fun _ => (.error e, env'') := by
  induction hfront generalizing env start with
  | nil =>
    cases hts
    rw [List.nil_append, replaceDescriptors_marked hstart harg, hd]
    rfl
  | @cons q t front ts hq _ ih =>
    cases hts with
    | cons hr hts =>
      have hhead := hplain q List.mem_cons_self
      have htail := fun q' hq' => hplain q' (List.mem_cons_of_mem q hq')
      rw [List.cons_append, replaceDescriptors_accepted hstart hhead.argument hq hr,
        ih hhead.after htail hts, graph_remember hr, List.mapM_cons]
      cases CType.runtimeName env.graph.resolver t with
      | error f => rfl
      | ok name => cases List.mapM (CType.runtimeName env.graph.resolver) ts <;> rfl

/-- What is remembered was known before, or has a name. -/
structure NamesNew (before env : Environment) : Prop where
  graph : env.graph = before.graph
  named : ∀ t, env.registry.remembered.get? t = some none →
    before.registry.remembered.get? t = some none ∨
      ∃ name, CType.runtimeName before.graph.resolver t = .ok name

theorem NamesNew.record {before : Environment} (h : NamesNew before env) {clientData : Option Text}
    {e : Except RememberError Unit} {r : Registry} (hr : env.record t clientData = .ok (e, r)) :
    NamesNew before { env with registry := r } := by
  obtain ⟨name, canonical, hrecorded⟩ := recorded_of_record hr
  refine ⟨h.graph, fun u hu => ?_⟩
  have hget : (env.registry.remembered.insert t clientData).get? u = some none :=
    hrecorded.remembered ▸ hu
  rw [Table.get?_insert] at hget
  split at hget
  · rename_i heq
    exact Or.inr ⟨name, heq ▸ h.graph ▸ hrecorded.named⟩
  · exact h.named u hget

theorem NamesNew.accepted {before : Environment} (h : NamesNew before env)
    (hr : env.remember t none = .ok (.ok (), env₁)) :
    before.registry.remembered.get? t = some none ∨
      ∃ name, CType.runtimeName before.graph.resolver t = .ok name := by
  have hrecord : ∀ {e r}, env.record t none = .ok (e, r) →
      ∃ name, CType.runtimeName before.graph.resolver t = .ok name := by
    intro e r hr
    obtain ⟨name, canonical, hrecorded⟩ := recorded_of_record hr
    exact ⟨name, h.graph ▸ hrecorded.named⟩
  rcases remember_cases hr with ⟨-, he, -⟩ | ⟨hk, -⟩ | ⟨-, -, r, hrec, -⟩ |
    ⟨-, -, first, again, r, r', inner, hrec, -⟩
  · cases he
  · exact h.named t hk
  · exact Or.inr (hrecord hrec)
  · exact Or.inr (hrecord hrec)

/-- A type that is accepted for the first time has a name in the beginning. -/
theorem NamesNew.all {before : Environment} (h : NamesNew before env)
    (hts : env.RemembersAll ts env') : ∀ t ∈ ts,
      before.registry.remembered.get? t = some none ∨
        ∃ name, CType.runtimeName before.graph.resolver t = .ok name := by
  induction hts with
  | nil => exact nofun
  | cons hr _ ih =>
    have hafter := remember_keeps (P := NamesNew before) (fun _ _ _ _ _ hp hr => hp.record hr) h hr
    exact List.forall_mem_cons.mpr ⟨h.accepted hr, ih hafter⟩

theorem names_of_new (hts : env.RemembersAll ts env')
    (hnew : ∀ t ∈ ts, env.registry.remembered.get? t ≠ some none) :
    ∃ names, ts.mapM (CType.runtimeName env.graph.resolver) = .ok names := by
  have hself : NamesNew env env := ⟨rfl, fun _ ht => Or.inl ht⟩
  exact mapM_returns_iff.mpr fun t ht => (hself.all hts t ht).resolve_left (hnew t ht)

/-- In a text whose markers close their parentheses, every marker becomes the descriptor name that
its type has in the beginning, and all else is kept, where the types are accepted one after the
other: the state is then the one after the last of them. The first marker without a type is reported
as it is written, where the types before it are accepted; they stay remembered. Types that are
accepted for the first time have their names. -/
theorem replaceDescriptors_exact (env : Environment) (descriptor : Text)
    (hstart : start.has descriptorMarker = false) (hplain : ∀ p ∈ ps, p.Plain) :
    (∀ ts env', List.Forall₂ Passage.Holds ps ts → env.RemembersAll ts env' →
      env.replaceDescriptors (marked start ps) descriptor =
        (ts.mapM (CType.runtimeName env.graph.resolver)).map fun names =>
          (.ok (replaced descriptor start ps names), env')) ∧
    (∀ front p back ts env' e, ps = front ++ p :: back → List.Forall₂ Passage.Holds front ts →
      env.RemembersAll ts env' → Declaration.parse p.argument.trim = .error e →
      env.replaceDescriptors (marked start ps) descriptor =
        (ts.mapM (CType.runtimeName env.graph.resolver)).map fun _ =>
          (.error (.badType p.argument e), env')) ∧
    ∀ ts env', env.RemembersAll ts env' →
      (∀ t ∈ ts, env.registry.remembered.get? t ≠ some none) →
      ∃ names, ts.mapM (CType.runtimeName env.graph.resolver) = .ok names := by
  refine ⟨fun ts env' hps hts => replaceDescriptors_all hstart hplain hps hts, ?_,
    fun ts env' hts hnew => names_of_new hts hnew⟩
  rintro front p back ts env' e rfl hfront hts hp
  have hbefore := fun q hq => hplain q (List.mem_append_left (p :: back) hq)
  have hhere := hplain p (List.mem_append_right front List.mem_cons_self)
  exact replaceDescriptors_stopped hstart hbefore hfront hts hhere.argument (describe_refused hp)

/-- A pointer and a pointer to a function, and behind them a marker with no type. -/
theorem replaceDescriptors_pair : ∃ env',
    (new 9).RemembersAll ["p.Foo".toList, "p.f(int).int".toList] env' ∧
    (new 9).replaceDescriptors "f($descriptor(Foo *), $descriptor( int (*)(int) ));".toList
      descriptorHead = .ok (.ok "f(SWIGTYPE_p_Foo, SWIGTYPE_p_f_int__int);".toList, env') ∧
    (new 9).replaceDescriptors
      "f($descriptor(Foo *), $descriptor( int (*)(int) )$descriptor())".toList descriptorHead =
        .ok (.error (.badType [] .empty), env') := by
  let types := ["p.Foo".toList, "p.f(int).int".toList]
  let good : List Passage := [⟨"Foo *".toList, ", ".toList⟩, ⟨" int (*)(int) ".toList, ");".toList⟩]
  let front : List Passage := [⟨"Foo *".toList, ", ".toList⟩, ⟨" int (*)(int) ".toList, []⟩]
  let bad : Passage := ⟨[], ")".toList⟩
  have hremembers : ∃ env', (new 9).RemembersAll types env' := by
    let after (env : Environment) (t : CType) : Environment :=
      match env.remember t none with
      | .ok r => r.2
      | .error _ => env
    have hfirst : (new 9).remember "p.Foo".toList none =
        .ok (.ok (), after (new 9) "p.Foo".toList) := by decide +kernel
    have hsecond : (after (new 9) "p.Foo".toList).remember "p.f(int).int".toList none =
        .ok (.ok (), after (after (new 9) "p.Foo".toList) "p.f(int).int".toList) := by
      decide +kernel
    exact ⟨_, .cons hfirst (.cons hsecond (.nil _))⟩
  have hnames : types.mapM (CType.runtimeName (new 9).graph.resolver) =
      .ok ["_p_Foo".toList, "_p_f_int__int".toList] := by decide +kernel
  have hstart : Text.has "f(".toList descriptorMarker = false := by decide
  have hplain : ∀ p ∈ good, p.Plain := by decide +kernel
  have hplain' : ∀ p ∈ front ++ [bad], p.Plain := by decide +kernel
  have hgood : List.Forall₂ Passage.Holds good types :=
    .cons (by decide +kernel) (.cons (by decide +kernel) .nil)
  have hfront : List.Forall₂ Passage.Holds front types :=
    .cons (by decide +kernel) (.cons (by decide +kernel) .nil)
  have htext : marked "f(".toList good =
      "f($descriptor(Foo *), $descriptor( int (*)(int) ));".toList := by decide +kernel
  have htext' : marked "f(".toList (front ++ [bad]) =
      "f($descriptor(Foo *), $descriptor( int (*)(int) )$descriptor())".toList := by decide +kernel
  have hdone : replaced descriptorHead "f(".toList good
      ["_p_Foo".toList, "_p_f_int__int".toList] =
        "f(SWIGTYPE_p_Foo, SWIGTYPE_p_f_int__int);".toList := by decide +kernel
  obtain ⟨env', hts⟩ := hremembers
  have hall :=
    (replaceDescriptors_exact (new 9) descriptorHead hstart hplain).1 types env' hgood hts
  have hstop :=
    (replaceDescriptors_exact (new 9) descriptorHead hstart hplain').2.1 front bad [] types env'
      .empty rfl hfront hts (by decide +kernel)
  rw [hnames, htext, Except.map, hdone] at hall
  rw [hnames, htext'] at hstop
  exact ⟨env', hts, hall, hstop⟩

/-- A type that is not accepted stands in front of a marker with no type, and is what is
reported. -/
theorem misspelled_before_unparsed : ¬ ∀ (env : Environment) descriptor start front p back ts e,
    start.has descriptorMarker = false → (∀ q ∈ front ++ p :: back, q.Plain) →
    List.Forall₂ Passage.Holds front ts → Declaration.parse p.argument.trim = .error e →
    ∃ env', env.replaceDescriptors (marked start (front ++ p :: back)) descriptor =
      .ok (.error (.badType p.argument e), env') := by
  intro h
  let front : List Passage := [⟨"int [a<b]".toList, []⟩]
  have hplain : ∀ q ∈ front ++ [⟨[], []⟩], q.Plain := by decide +kernel
  have hfront : List.Forall₂ Passage.Holds front ["a(a<b).int".toList] :=
    .cons (by decide +kernel) .nil
  obtain ⟨env', henv⟩ := h (new 9) descriptorHead [] front ⟨[], []⟩ [] _ .empty (by decide) hplain
    hfront (by decide +kernel)
  have hreported : (new 9).replaceDescriptors (marked [] (front ++ [⟨[], []⟩])) descriptorHead =
      .ok (.error (.remember (.malformedTemplate "a(a<b).int".toList)), new 9) := by decide +kernel
  rw [hreported] at henv
  cases henv

end Environment

end BindingTypes
