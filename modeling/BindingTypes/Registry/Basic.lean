import BindingTypes.RuntimeName
import BindingTypes.Scope.Qualification
import BindingTypes.Scope.Typedef

namespace BindingTypes

/-- A direct subtype and the cast that leads from it to its base. -/
structure Subtype where
  derived : Text
  cast : Text
deriving DecidableEq, Repr

/-- A function that turns a pointer to a derived type into one to its base. -/
structure Converter where
  name : Text
  /-- The local declarator of the base. -/
  result : Text
  cast : Text
  /-- The local declarator of the derived type. -/
  source : Text
deriving DecidableEq, Repr

/-- The types that the runtime has to know. -/
structure Registry where
  /-- The client data each type was remembered with. -/
  remembered : Table (Option Text) := ∅
  /-- The canonical types a runtime name denotes. -/
  denoted : Table (Table Unit) := ∅
  /-- The runtime names of a canonical type, with the type each stands for. -/
  names : Table (Table CType) := ∅
  /-- The local type that is shown for a runtime name. -/
  locals : Table CType := ∅
  clientData : Table Text := ∅
  /-- The direct subtypes of a base, in the order of their registration. -/
  subtypes : Table (List Subtype) := ∅
  /-- The converter from one runtime name to another. -/
  conversions : Table Text := ∅
  converters : List Converter := []
deriving DecidableEq

/-- Why a type cannot be remembered as asked. -/
inductive RememberError where
  | inconsistentClientData (type given kept : Text)
  | malformedTemplate (type : CType)
deriving DecidableEq, Repr

def RememberError.message : RememberError → String
  | inconsistentClientData type given kept =>
    "inconsistent client data for type `" ++ String.ofList type ++ "`: `" ++ String.ofList given ++
      "` != `" ++ String.ofList kept ++ "`"
  | malformedTemplate type =>
    "bad template type `" ++ String.ofList type ++ "`: arguments must be written `<(...)>`"

/-- The scopes of a program and the types its runtime has to know. -/
structure Environment where
  graph : ScopeGraph
  registry : Registry := {}
deriving DecidableEq

namespace Registry

def denotedBy (r : Registry) (name : Text) : Table Unit := (r.denoted.get? name).getD ∅

def namesOf (r : Registry) (t : CType) : Table CType := (r.names.get? t).getD ∅

/-- `name` is listed for the canonical type `t` and stands for `target`. -/
def addName (r : Registry) (t : CType) (name : Text) (target : CType) : Registry :=
  { r with names := r.names.insert t ((r.namesOf t).insert name target) }

/-- `name` denotes the canonical type `t`. -/
def addDenoted (r : Registry) (name : Text) (t : CType) : Registry :=
  { r with denoted := r.denoted.insert name ((r.denotedBy name).insert t ()) }

end Registry

namespace Environment

def new (budget : Nat) : Environment := { graph := .new budget }

/-- The canonical type without qualifiers. -/
def canonical (env : Environment) (t : CType) : Except Fault CType := do
  CType.stripQualifiers (← env.graph.canonical t)

/-- Client data for a canonical type. The first that was given is kept. -/
def attachClientData (r : Registry) (canonical : CType) (given : Option Text) :
    Except Fault (Except RememberError Unit × Registry) := do
  match given, r.clientData.get? canonical with
  | none, _ => return (.ok (), r)
  | some given, none =>
    return (.ok (), { r with clientData := r.clientData.insert canonical given })
  | some given, some kept =>
    if kept = given then return (.ok (), r)
    else
      return (.error (.inconsistentClientData (← CType.spelling canonical) given kept), r)

/-- One type under its runtime name. -/
def record (env : Environment) (t : CType) (clientData : Option Text) :
    Except Fault (Except RememberError Unit × Registry) := do
  let name ← CType.runtimeName env.graph.resolver t
  let shown ← if ← env.graph.isTypedef t then pure t else CType.localType env.graph.resolver t
  let canonical ← env.canonical t
  let r := { env.registry with
    remembered := env.registry.remembered.insert t clientData
    locals := env.registry.locals.insert name shown }
  attachClientData ((r.addDenoted name canonical).addName canonical name canonical) canonical
    clientData

/-- The template arguments of the type are not written as the encoding asks. -/
def isMisspelled (t : CType) : Bool := t.has ['<'] && !t.isTemplate

/-- One type, unless it was remembered with the same client data before. -/
def recordNew (env : Environment) (t : CType) (clientData : Option Text) :
    Except Fault (Except RememberError Unit × Registry) :=
  if isMisspelled t then .ok (.error (.malformedTemplate t), env.registry)
  else if env.registry.remembered.get? t = some clientData then .ok (.ok (), env.registry)
  else env.record t clientData

/-- Remembers a type; with a new reference also the pointer to the same type. A conflict is
reported after everything else was recorded. -/
def remember (env : Environment) (t : CType) (clientData : Option Text) :
    Except Fault (Except RememberError Unit × Environment) := do
  let isNew := !isMisspelled t && env.registry.remembered.get? t ≠ some clientData
  let (result, r) ← env.recordNew t clientData
  let env := { env with registry := r }
  if isNew && t.isReference then
    let pointer := (← CType.delReference t).addPointer
    let (again, r) ← env.recordNew pointer clientData
    return (result.bind fun _ => again, { env with registry := r })
  else return (result, env)

/-- The name of a class as subtypes are registered under it. -/
def subtypeName (env : Environment) (name : Text) : Except Fault Text :=
  if CType.isTemplate name then env.graph.canonical name else .ok name

/-- Registers `derived` as a direct subtype of `base`. The first registration of a pair wins. -/
def addSubtype (env : Environment) (derived base : Text) (cast : Option Text) :
    Except Fault Environment := do
  let derived ← env.subtypeName derived
  let base ← env.subtypeName base
  let known := (env.registry.subtypes.get? base).getD []
  let extended :=
    if known.any fun s => s.derived = derived then known else known ++ [⟨derived, cast.getD []⟩]
  return { env with
    registry := { env.registry with subtypes := env.registry.subtypes.insert base extended } }

/-- The base of one canonical type is a registered direct subtype of the base of the other. -/
def isSubtype (env : Environment) (t base : CType) : Except Fault Bool := do
  let derived ← CType.base (← env.canonical t)
  let base ← CType.base (← env.canonical base)
  return ((env.registry.subtypes.get? base).getD []).any fun s => s.derived = derived

/-- The runtime names remembered so far, in order. -/
def rememberedNames (env : Environment) : List Text := env.registry.denoted.keys

end Environment

end BindingTypes
