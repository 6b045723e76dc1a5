import BindingTypes.Proofs.Registry.Consistency

namespace BindingTypes

namespace Environment

/-- All that recording `t` reads of it: its runtime name, the type that is shown for it, and its
canonical type `c`, which messages write as `text`. -/
structure Accepts (env : Environment) (t c : CType) (text : Text) : Prop where
  spelled : isMisspelled t = false
  named : ∃ name, CType.runtimeName env.graph.resolver t = .ok name
  shown : ∃ isTypedef, env.graph.isTypedef t = .ok isTypedef ∧
    (isTypedef = false → ∃ shown, CType.localType env.graph.resolver t = .ok shown)
  canonical : env.canonical t = .ok c
  text : CType.spelling c = .ok text

variable {env env' : Environment} {t c : CType} {text given kept : Text} {clientData : Option Text}

theorem attachClientData_conflict {r : Registry} (htext : CType.spelling c = .ok text)
    (hkept : r.clientData.get? c = some kept) (hne : given ≠ kept) :
    attachClientData r c (some given) =
      .ok (.error (.inconsistentClientData text given kept), r) := by
  unfold attachClientData
  rw [hkept]
  show (if kept = given then _ else _) = _
  rw [if_neg hne.symm, htext]
  rfl

/-- A type that is recorded with other client data than its canonical type has. -/
theorem record_conflict (ht : env.Accepts t c text)
    (hkept : env.registry.clientData.get? c = some kept) (hne : given ≠ kept) :
    ∃ r, env.record t (some given) =
        .ok (.error (.inconsistentClientData text given kept), r) ∧
      r.clientData = env.registry.clientData ∧
      r.remembered = env.registry.remembered.insert t (some given) := by
  obtain ⟨name, hname⟩ := ht.named
  obtain ⟨isTypedef, htypedef, hlocal⟩ := ht.shown
  have hrest : ∀ shown : CType, (do
      let canonical ← env.canonical t
      let r := { env.registry with
        remembered := env.registry.remembered.insert t (some given)
        locals := env.registry.locals.insert name shown }
      attachClientData ((r.addDenoted name canonical).addName canonical name canonical) canonical
        (some given)) = .ok (.error (.inconsistentClientData text given kept),
          { (env.registry.addDenoted name c).addName c name c with
            remembered := env.registry.remembered.insert t (some given)
            locals := env.registry.locals.insert name shown }) := by
    intro shown
    rw [ht.canonical]
    exact attachClientData_conflict ht.text hkept hne
  unfold record
  rw [hname]
  show ∃ r, (env.graph.isTypedef t >>= _) = _ ∧ _
  rw [htypedef]
  cases isTypedef with
  | true => exact ⟨_, hrest t, rfl, rfl⟩
  | false =>
    obtain ⟨shown, hshown⟩ := hlocal rfl
    show ∃ r, (CType.localType env.graph.resolver t >>= _) = _ ∧ _
    rw [hshown]
    exact ⟨_, hrest shown, rfl, rfl⟩

theorem remember_new (hm : isMisspelled t = false)
    (hk : env.registry.remembered.get? t ≠ some clientData) (hf : CType.isReference t = false)
    {e : Except RememberError Unit} {r : Registry} (h : env.record t clientData = .ok (e, r)) :
    env.remember t clientData = .ok (e, { env with registry := r }) := by
  unfold remember recordNew
  rw [hm, if_neg Bool.false_ne_true, if_neg hk, h]
  show (if _ then _ else _) = _
  rw [hf, Bool.and_false, if_neg Bool.false_ne_true]
  rfl

end Environment

open Environment

variable {t c : CType} {text given kept : Text}

/-- In every state of every run, a call that gives a type other client data than is kept for its
canonical type returns, and reports the conflict unless the type was remembered with the same client
data the last time; then nothing happens. So a call that is repeated reports nothing. What is kept
stays, whatever the run goes on with. -/
theorem conflict_reported_iff (budget : Nat) (ops : List Operation)
    (ht : (Consulted.run budget ops).env.Accepts t c text) (hf : CType.isReference t = false)
    (hkept : (Consulted.run budget ops).env.registry.clientData.get? c = some kept)
    (hne : given ≠ kept) :
    ∃ result env', (Consulted.run budget ops).env.remember t (some given) = .ok (result, env') ∧
      (result = .error (.inconsistentClientData text given kept) ↔
        (Consulted.run budget ops).env.registry.remembered.get? t ≠ some (some given)) ∧
      ((Consulted.run budget ops).env.registry.remembered.get? t = some (some given) →
        result = .ok () ∧ env' = (Consulted.run budget ops).env) ∧
      env'.remember t (some given) = .ok (.ok (), env') ∧
      env'.registry.clientData.get? c = some kept ∧
      ∀ more, (Consulted.run budget (ops ++ more)).env.registry.clientData.get? c = some kept := by
  have hlater : ∀ more,
      (Consulted.run budget (ops ++ more)).env.registry.clientData.get? c = some kept := fun more =>
    (Consulted.grows_run budget ops more).clientData c kept hkept
  generalize (Consulted.run budget ops).env = env at ht hkept ⊢
  by_cases hk : env.registry.remembered.get? t = some (some given)
  · have hknown := remember_known ht.spelled hk
    exact ⟨.ok (), env, hknown, ⟨nofun, fun h => absurd hk h⟩, fun _ => ⟨rfl, rfl⟩, hknown, hkept,
      hlater⟩
  · obtain ⟨r, hr, hdata, hremembered⟩ := record_conflict ht hkept hne
    have hself : r.remembered.get? t = some (some given) := by
      rw [hremembered, Table.get?_insert, if_pos rfl]
    exact ⟨_, _, remember_new ht.spelled hk hf hr, ⟨fun _ => hk, fun _ => rfl⟩,
      fun h => absurd h hk, remember_known ht.spelled hself, hdata ▸ hkept, hlater⟩

/-- `int` is remembered with the client data `x`. -/
def rememberedInt : List Operation :=
  [.registry (.remember "int".toList (some "x".toList)) []]

theorem conflict_after_first :
    ∃ env', (Consulted.run 9 rememberedInt).env.remember "int".toList (some "y".toList) =
        .ok (.error (.inconsistentClientData "int".toList "y".toList "x".toList), env') ∧
      env'.remember "int".toList (some "y".toList) = .ok (.ok (), env') ∧
      env'.registry.clientData.get? "int".toList = some "x".toList := by
  have ht : (Consulted.run 9 rememberedInt).env.Accepts "int".toList "int".toList "int".toList :=
    { spelled := by decide
      named := exists_of_isOk (by decide +kernel)
      shown := ⟨false, by decide +kernel, fun _ => exists_of_isOk (by decide +kernel)⟩
      canonical := by decide +kernel
      text := by decide +kernel }
  have hne : "y".toList ≠ "x".toList := by decide
  obtain ⟨result, env', hcall, hiff, -, hagain, hkept, -⟩ :=
    conflict_reported_iff 9 rememberedInt ht (by decide) (by decide +kernel) hne
  cases hiff.mpr (by decide +kernel)
  exact ⟨env', hcall, hagain, hkept⟩

/-- The second of two conflicting calls that are alike is accepted. -/
theorem repeated_conflict_accepted :
    ¬ ∀ ops t c text given kept, (Consulted.run 9 ops).env.Accepts t c text →
      CType.isReference t = false →
      (Consulted.run 9 ops).env.registry.clientData.get? c = some kept → given ≠ kept →
      ∃ env', (Consulted.run 9 ops).env.remember t (some given) =
        .ok (.error (.inconsistentClientData text given kept), env') := by
  intro h
  let ops := rememberedInt ++ [.registry (.remember "int".toList (some "y".toList)) []]
  have ht : (Consulted.run 9 ops).env.Accepts "int".toList "int".toList "int".toList :=
    { spelled := by decide
      named := exists_of_isOk (by decide +kernel)
      shown := ⟨false, by decide +kernel, fun _ => exists_of_isOk (by decide +kernel)⟩
      canonical := by decide +kernel
      text := by decide +kernel }
  obtain ⟨env', henv⟩ := h ops _ _ _ "y".toList "x".toList ht (by decide) (by decide +kernel)
    (by decide)
  have hsilent : ((Consulted.run 9 ops).env.remember "int".toList (some "y".toList)).map (·.1) =
      .ok (.ok ()) := by decide +kernel
  rw [henv] at hsilent
  cases hsilent

end BindingTypes
