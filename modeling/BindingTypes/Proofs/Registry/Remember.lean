import BindingTypes.Descriptor
import BindingTypes.Proofs.Outcome

namespace BindingTypes

namespace Environment

variable {env env' : Environment} {t : CType} {clientData : Option Text}

/-- The first client data is kept. -/
theorem attachClientData_eq_ok {r r' : Registry} {canonical : CType}
    {e : Except RememberError Unit}
    (h : attachClientData r canonical clientData = .ok (e, r')) :
    ∃ data, r' = { r with clientData := data } ∧ (data = r.clientData ∨
      r.clientData.get? canonical = none ∧ ∃ given, data = r.clientData.insert canonical given) := by
  unfold attachClientData at h
  split at h
  · cases h
    exact ⟨r.clientData, rfl, Or.inl rfl⟩
  · rename_i given hnone
    cases h
    exact ⟨_, rfl, Or.inr ⟨hnone, given, rfl⟩⟩
  · split at h
    · cases h
      exact ⟨r.clientData, rfl, Or.inl rfl⟩
    · obtain ⟨text, -, h⟩ := bind_eq_ok h
      cases h
      exact ⟨r.clientData, rfl, Or.inl rfl⟩

/-- The registry after a type was recorded. -/
theorem record_eq_ok {r : Registry} {e : Except RememberError Unit}
    (h : env.record t clientData = .ok (e, r)) :
    ∃ name canonical shown data, CType.runtimeName env.graph.resolver t = .ok name ∧
      env.canonical t = .ok canonical ∧
      (data = env.registry.clientData ∨ env.registry.clientData.get? canonical = none ∧
        ∃ given, data = env.registry.clientData.insert canonical given) ∧
      r = { (env.registry.addDenoted name canonical).addName canonical name canonical with
        remembered := env.registry.remembered.insert t clientData
        locals := env.registry.locals.insert name shown
        clientData := data } := by
  unfold record at h
  obtain ⟨name, hname, h⟩ := bind_eq_ok h
  obtain ⟨isTypedef, -, h⟩ := bind_eq_ok h
  have hshown : ∃ shown, (do
      let canonical ← env.canonical t
      let r := { env.registry with
        remembered := env.registry.remembered.insert t clientData
        locals := env.registry.locals.insert name shown }
      attachClientData ((r.addDenoted name canonical).addName canonical name canonical) canonical
        clientData) = .ok (e, r) := by
    split at h
    · exact ⟨t, h⟩
    · obtain ⟨shown, -, h⟩ := bind_eq_ok h
      exact ⟨shown, h⟩
  obtain ⟨shown, h⟩ := hshown
  obtain ⟨canonical, hcanonical, h⟩ := bind_eq_ok h
  obtain ⟨data, rfl, hdata⟩ := attachClientData_eq_ok h
  exact ⟨name, canonical, shown, data, hname, hcanonical, hdata, rfl⟩

/-- All that recording a type does, the shown type and the client data apart. -/
structure Recorded (env : Environment) (t : CType) (clientData : Option Text) (r : Registry)
    (name : Text) (canonical : CType) : Prop where
  named : CType.runtimeName env.graph.resolver t = .ok name
  means : env.canonical t = .ok canonical
  remembered : r.remembered = env.registry.remembered.insert t clientData
  denoted : r.denoted = (env.registry.addDenoted name canonical).denoted
  names : r.names = (env.registry.addName canonical name canonical).names
  subtypes : r.subtypes = env.registry.subtypes
  conversions : r.conversions = env.registry.conversions
  converters : r.converters = env.registry.converters

theorem recorded_of_record {r : Registry} {e : Except RememberError Unit}
    (h : env.record t clientData = .ok (e, r)) :
    ∃ name canonical, Recorded env t clientData r name canonical := by
  obtain ⟨name, canonical, shown, data, hname, hcanonical, -, rfl⟩ := record_eq_ok h
  exact ⟨name, canonical, ⟨hname, hcanonical, rfl, rfl, rfl, rfl, rfl, rfl⟩⟩

/-- A type is refused, known, or recorded. -/
theorem recordNew_cases {r : Registry} {e : Except RememberError Unit}
    (h : env.recordNew t clientData = .ok (e, r)) :
    (isMisspelled t = true ∧ e = .error (.malformedTemplate t) ∧ r = env.registry) ∨
    (isMisspelled t = false ∧ env.registry.remembered.get? t = some clientData ∧ e = .ok () ∧
      r = env.registry) ∨
    (isMisspelled t = false ∧ env.registry.remembered.get? t ≠ some clientData ∧
      env.record t clientData = .ok (e, r)) := by
  unfold recordNew at h
  split at h
  · rename_i hm
    cases h
    exact Or.inl ⟨hm, rfl, rfl⟩
  · rename_i hm
    have hm : isMisspelled t = false := by simpa using hm
    split at h
    · rename_i hk
      cases h
      exact Or.inr (Or.inl ⟨hm, hk, rfl, rfl⟩)
    · rename_i hk
      exact Or.inr (Or.inr ⟨hm, hk, h⟩)

theorem remember_misspelled (hm : isMisspelled t = true) :
    env.remember t clientData = .ok (.error (.malformedTemplate t), env) := by
  unfold remember recordNew
  rw [hm]
  rfl

theorem remember_known (hm : isMisspelled t = false)
    (hk : env.registry.remembered.get? t = some clientData) :
    env.remember t clientData = .ok (.ok (), env) := by
  unfold remember recordNew
  rw [hm, if_neg Bool.false_ne_true, if_pos hk]
  simp only [hk, ne_eq, not_true, decide_false, Bool.and_false, Bool.false_and, Bool.false_eq_true,
    if_false]
  rfl

/-- A type is refused, known, recorded alone, or recorded with the pointer that a reference
becomes. -/
theorem remember_cases {e : Except RememberError Unit}
    (h : env.remember t clientData = .ok (e, env')) :
    (isMisspelled t = true ∧ e = .error (.malformedTemplate t) ∧ env' = env) ∨
    (env.registry.remembered.get? t = some clientData ∧ env' = env) ∨
    (env.registry.remembered.get? t ≠ some clientData ∧ CType.isReference t = false ∧
      ∃ r, env.record t clientData = .ok (e, r) ∧ env' = { env with registry := r }) ∨
    (env.registry.remembered.get? t ≠ some clientData ∧ CType.isReference t = true ∧
      ∃ first again r r' inner, env.record t clientData = .ok (first, r) ∧
        CType.delReference t = .ok inner ∧
        recordNew { env with registry := r } inner.addPointer clientData = .ok (again, r') ∧
        e = (first.bind fun _ => again) ∧ env' = { env with registry := r' }) := by
  unfold remember at h
  obtain ⟨⟨first, r⟩, hr, h⟩ := bind_eq_ok h
  rcases recordNew_cases hr with ⟨hm, rfl, rfl⟩ | ⟨hm, hk, rfl, rfl⟩ | ⟨hm, hk, hrec⟩
  · simp only [hm, Bool.not_true, Bool.false_and, Bool.false_eq_true, if_false] at h
    cases h
    exact Or.inl ⟨hm, rfl, rfl⟩
  · simp only [hk, ne_eq, not_true, decide_false, Bool.and_false, Bool.false_and,
      Bool.false_eq_true, if_false] at h
    cases h
    exact Or.inr (Or.inl ⟨hk, rfl⟩)
  · cases hf : CType.isReference t with
    | false =>
      simp only [hf, Bool.and_false, Bool.false_eq_true, if_false] at h
      cases h
      exact Or.inr (Or.inr (Or.inl ⟨hk, rfl, r, hrec, rfl⟩))
    | true =>
      simp only [hm, hf, ne_eq, hk, not_false_eq_true, decide_true, Bool.not_false, Bool.and_true,
        if_true] at h
      obtain ⟨inner, hi, h⟩ := bind_eq_ok h
      obtain ⟨⟨again, r'⟩, hp, h⟩ := bind_eq_ok h
      cases h
      exact Or.inr (Or.inr (Or.inr ⟨hk, rfl, first, again, r, r', inner, hrec, hi, hp, rfl, rfl⟩))

/-- A marker is not understood, or its type is remembered. -/
theorem describe_cases {argument : Text} {r : Except DescriptorError Text}
    (h : env.describe argument = .ok (r, env')) :
    (∃ e, r = .error (.badType argument e) ∧ env' = env) ∨
    ∃ t name r', Declaration.parse argument.trim = .ok t ∧
      CType.runtimeName env.graph.resolver t = .ok name ∧ env.remember t none = .ok (r', env') ∧
      ((r' = .ok () ∧ r = .ok name) ∨ ∃ e, r' = .error e ∧ r = .error (.remember e)) := by
  unfold describe at h
  split at h
  · rename_i e he
    cases h
    exact Or.inl ⟨e, rfl, rfl⟩
  · rename_i t ht
    obtain ⟨name, hn, h⟩ := bind_eq_ok h
    obtain ⟨⟨r', env₁⟩, hr, h⟩ := bind_eq_ok h
    cases r' with
    | ok u =>
      cases h
      exact Or.inr ⟨t, name, .ok (), ht, hn, hr, Or.inl ⟨rfl, rfl⟩⟩
    | error e =>
      cases h
      exact Or.inr ⟨t, name, .error e, ht, hn, hr, Or.inr ⟨e, rfl, rfl⟩⟩

/-- A marker that was replaced. -/
structure Marker where
  type : CType
  name : Text
deriving DecidableEq, Repr

/-- How a text is read from left to right, which markers are replaced, and what comes of it. -/
inductive Replaces (descriptor : Text) :
    Environment → Text → List Marker → Except DescriptorError Text → Environment → Prop
  | done {env : Environment} {text : Text} (hc : text.cut? descriptorMarker = none) :
    Replaces descriptor env text [] (.ok text) env
  | unterminated {env : Environment} {text before opened : Text}
    (hc : text.cut? descriptorMarker = some (before, opened))
    (hg : CType.closeGroup 0 opened = none) :
    Replaces descriptor env text [] (.error .unterminated) env
  | refused {env env₁ : Environment} {text before opened argument rest : Text}
    {e : DescriptorError} (hc : text.cut? descriptorMarker = some (before, opened))
    (hg : CType.closeGroup 0 opened = some (argument, rest))
    (hd : env.describe argument = .ok (.error e, env₁)) :
    Replaces descriptor env text [] (.error e) env₁
  | marker {env env₁ env₂ : Environment} {text before opened argument rest name : Text} {t : CType}
    {ms : List Marker} {r : Except DescriptorError Text}
    (hc : text.cut? descriptorMarker = some (before, opened))
    (hg : CType.closeGroup 0 opened = some (argument, rest))
    (ht : Declaration.parse argument.trim = .ok t)
    (hn : CType.runtimeName env.graph.resolver t = .ok name)
    (hr : env.remember t none = .ok (.ok (), env₁))
    (tail : Replaces descriptor env₁ rest ms r env₂) :
    Replaces descriptor env text (⟨t, name⟩ :: ms)
      (r.map fun done => before ++ descriptor ++ name ++ done) env₂

theorem replaces_of_replaceDescriptors {text descriptor : Text} {r : Except DescriptorError Text}
    (h : env.replaceDescriptors text descriptor = .ok (r, env')) :
    ∃ ms, Replaces descriptor env text ms r env' := by
  induction hn : text.length using Nat.strongRecOn generalizing text env r with
  | ind n ih =>
    rw [replaceDescriptors] at h
    split at h
    · rename_i hc
      cases h
      exact ⟨[], .done hc⟩
    · rename_i before opened hc
      split at h
      · rename_i hg
        cases h
        exact ⟨[], .unterminated hc hg⟩
      · rename_i argument rest hg
        obtain ⟨⟨r₁, env₁⟩, hd, h⟩ := bind_eq_ok h
        cases r₁ with
        | error e =>
          cases h
          exact ⟨[], .refused hc hg hd⟩
        | ok name =>
          obtain ⟨⟨r₂, env₂⟩, hrest, h⟩ := bind_eq_ok h
          cases h
          have hlt : rest.length < n := by
            have h1 := congrArg List.length (Text.eq_of_cut? hc)
            have h2 := congrArg List.length (CType.append_of_closeGroup hg)
            simp only [List.length_append, List.length_cons] at h1 h2
            omega
          obtain ⟨ms, hms⟩ := ih _ hlt hrest rfl
          rcases describe_cases hd with ⟨e, he, -⟩ | ⟨t, name', r', ht, hn, hr, hr'⟩
          · cases he
          · rcases hr' with ⟨rfl, he⟩ | ⟨e, -, he⟩
            · cases he
              exact ⟨⟨t, name⟩ :: ms, .marker hc hg ht hn hr hms⟩
            · cases he

section Keeps

variable {P : Environment → Prop}
variable (hrecord : ∀ env t clientData e r, P env → env.record t clientData = .ok (e, r) →
  P { env with registry := r })

include hrecord in
theorem recordNew_keeps {r : Registry} {e : Except RememberError Unit} (hp : P env)
    (h : env.recordNew t clientData = .ok (e, r)) : P { env with registry := r } := by
  rcases recordNew_cases h with ⟨-, -, rfl⟩ | ⟨-, -, -, rfl⟩ | ⟨-, -, h⟩
  · exact hp
  · exact hp
  · exact hrecord env t clientData e r hp h

include hrecord in
theorem remember_keeps {e : Except RememberError Unit} (hp : P env)
    (h : env.remember t clientData = .ok (e, env')) : P env' := by
  rcases remember_cases h with ⟨-, -, rfl⟩ | ⟨-, rfl⟩ | ⟨-, -, r, hr, rfl⟩ |
    ⟨-, -, first, again, r, r', inner, hr, -, hr', -, rfl⟩
  · exact hp
  · exact hp
  · exact hrecord env t clientData e r hp hr
  · have hp' := hrecord env t clientData first r hp hr
    have hlast := recordNew_keeps hrecord hp' hr'
    exact hlast

include hrecord in
theorem replaces_keeps {text descriptor : Text} {ms : List Marker}
    {r : Except DescriptorError Text} (hp : P env)
    (h : Replaces descriptor env text ms r env') : P env' := by
  induction h with
  | done => exact hp
  | unterminated => exact hp
  | refused hc hg hd =>
    rcases describe_cases hd with ⟨e, -, rfl⟩ | ⟨t, name, r', -, -, hr, -⟩
    · exact hp
    · exact remember_keeps hrecord hp hr
  | marker hc hg ht hn hr tail ih => exact ih (remember_keeps hrecord hp hr)

end Keeps

theorem graph_remember {e : Except RememberError Unit}
    (h : env.remember t clientData = .ok (e, env')) : env'.graph = env.graph :=
  remember_keeps (P := fun e => e.graph = env.graph) (fun _ _ _ _ _ hp _ => hp) rfl h

end Environment

end BindingTypes
