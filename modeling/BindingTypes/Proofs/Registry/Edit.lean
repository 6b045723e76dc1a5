import BindingTypes.Proofs.Registry.Fold
import BindingTypes.Proofs.Registry.Remember

namespace BindingTypes

/-- A change to the types that the runtime has to know. -/
inductive RegistryEdit where
  | remember (t : CType) (clientData : Option Text)
  | addSubtype (derived base : Text) (cast : Option Text)
  | foldSubtypes
  | typeTable
  | replaceDescriptors (text descriptor : Text)
deriving DecidableEq

namespace Environment

def register (env : Environment) : RegistryEdit → Except Fault Environment
  | .remember t clientData => return (← env.remember t clientData).2
  | .addSubtype derived base cast => env.addSubtype derived base cast
  | .foldSubtypes => env.foldSubtypes
  | .typeTable => return (← env.typeTable).2
  | .replaceDescriptors text descriptor => return (← env.replaceDescriptors text descriptor).2

variable {env env' : Environment}

/-- Every change comes down to recording single types, registering single subtypes and folding. -/
theorem register_keeps {P : Environment → Prop}
    (hrecord : ∀ env t clientData e r, P env → env.record t clientData = .ok (e, r) →
      P { env with registry := r })
    (hsubtype : ∀ env derived base cast env', P env →
      env.addSubtype derived base cast = .ok env' → P env')
    (hfold : ∀ env env', P env → env.foldSubtypes = .ok env' → P env')
    {e : RegistryEdit} (hp : P env) (h : env.register e = .ok env') : P env' := by
  cases e with
  | remember t clientData =>
    obtain ⟨⟨r, env₁⟩, hr, h⟩ := bind_eq_ok h
    cases h
    exact remember_keeps hrecord hp hr
  | addSubtype derived base cast => exact hsubtype env derived base cast env' hp h
  | foldSubtypes => exact hfold env env' hp h
  | typeTable =>
    obtain ⟨⟨table, env₁⟩, ht, h⟩ := bind_eq_ok h
    cases h
    obtain ⟨folded, hf, ht⟩ := bind_eq_ok ht
    obtain ⟨entries, -, ht⟩ := bind_eq_ok ht
    cases ht
    exact hfold env _ hp hf
  | replaceDescriptors text descriptor =>
    obtain ⟨⟨r, env₁⟩, hr, h⟩ := bind_eq_ok h
    cases h
    obtain ⟨ms, hms⟩ := replaces_of_replaceDescriptors hr
    exact replaces_keeps hrecord hp hms

/-- An edge changes the table of subtypes alone. -/
theorem addSubtype_eq_ok {derived base : Text} {cast : Option Text}
    (h : env.addSubtype derived base cast = .ok env') :
    ∃ subtypes, env' = { env with registry := { env.registry with subtypes } } := by
  unfold addSubtype at h
  obtain ⟨d, -, h⟩ := bind_eq_ok h
  obtain ⟨b, -, h⟩ := bind_eq_ok h
  exact ⟨_, (Except.ok.inj h).symm⟩

theorem graph_addSubtype {derived base : Text} {cast : Option Text}
    (h : env.addSubtype derived base cast = .ok env') : env'.graph = env.graph := by
  obtain ⟨subtypes, rfl⟩ := addSubtype_eq_ok h
  rfl

theorem graph_register {e : RegistryEdit} (h : env.register e = .ok env') :
    env'.graph = env.graph :=
  register_keeps (P := fun e => e.graph = env.graph) (fun _ _ _ _ _ hp _ => hp)
    (fun _ _ _ _ _ hp h => (graph_addSubtype h).trans hp)
    (fun _ _ hp h => (graph_foldSubtypes h).trans hp) rfl h

end Environment

end BindingTypes
