import BindingTypes.Registry.Basic

namespace BindingTypes.Environment

/-- The key of the conversion from one runtime name to another. -/
def conversionKey (source target : Text) : Text := source ++ '+' :: target

/-- Every name that stands for the derived type itself gets its converter, and becomes a name of
the base. -/
def shareConverter (canonical : CType) (converter target : Text) (knownNames : List Text)
    (r : Registry) (other : Text × CType) : Registry :=
  let key := conversionKey other.1 target
  let first :=
    if r.conversions.contains key then r.conversions else r.conversions.insert key converter
  let conversions := knownNames.foldl
    (fun t known => t.insert (conversionKey other.1 known) converter) first
  ({ r with conversions }).addName canonical other.1 other.2

/-- One subtype of the base of a canonical type becomes an equivalent of that type, with a
converter the first time. -/
def foldSubtype (env : Environment) (canonical : CType) (target : Text) (knownNames : List Text)
    (s : Subtype) : Except Fault Environment := do
  let derived := (← CType.front canonical) ++ s.derived
  let source ← CType.runtimeName env.graph.resolver derived
  let r := env.registry.addName canonical source derived
  let key := conversionKey source target
  if r.conversions.contains key then return { env with registry := r }
  else
    let name := source ++ "To".toList ++ target
    let result ← CType.localDeclaration env.graph.resolver canonical []
    let source ← CType.localDeclaration env.graph.resolver derived []
    let converter : Converter := ⟨name, result, s.cast, source⟩
    let r : Registry := { r with
      converters := r.converters ++ [converter]
      conversions := r.conversions.insert key name }
    let aliases := (r.namesOf derived).entries.filter fun e => e.2 = derived
    return { env with
      registry := aliases.foldl (shareConverter canonical name target knownNames) r }

/-- All subtypes of the base of a canonical type. -/
def foldType (env : Environment) (canonical : CType) : Except Fault Environment := do
  match env.registry.subtypes.get? (← CType.base canonical) with
  | none => return env
  | some subtypes =>
    let target ← CType.runtimeName env.graph.resolver canonical
    let knownNames := (env.registry.namesOf canonical).keys
    subtypes.foldlM (fun env s => env.foldSubtype canonical target knownNames s) env

/-- Registered subtypes become equivalents of the remembered types they can stand for. -/
def foldSubtypes (env : Environment) : Except Fault Environment :=
  env.registry.names.keys.foldlM foldType env

end BindingTypes.Environment
