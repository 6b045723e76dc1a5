import BindingTypes.Scope.Resolution

namespace BindingTypes

/-- Why a name cannot be declared. -/
inductive TypedefError where
  | alreadyDefined (name scope : Text)
  | notQualified (name : Text)
deriving DecidableEq, Repr

def TypedefError.message : TypedefError → String
  | alreadyDefined name scope =>
    "`" ++ String.ofList name ++ "` is already defined in scope `" ++ String.ofList scope ++ "`"
  | notQualified name =>
    "using-declaration `" ++ String.ofList name ++ "` is not scope-qualified"

namespace ScopeGraph

/-- The error of declaring a name that the current scope declares already. -/
def redefinition? (g : ScopeGraph) (name : Text) : Option TypedefError :=
  if (g.scope g.current).typedefs.contains name then
    let scope := g.nameOf g.current
    some (.alreadyDefined name (if scope = [] then "::".toList else scope))
  else none

def insertTypedef (g : ScopeGraph) (id : ScopeId) (name : Text) (entry : TypedefEntry) :
    ScopeGraph :=
  touch (g.modifyScope id fun s => { s with typedefs := s.typedefs.insert name entry })

/-- A scope named `name` in the current one that stands in for `target`. -/
def standIn (g : ScopeGraph) (name : Text) (target : ScopeId) : ScopeGraph :=
  let (id, g) := g.enter (some name)
  let g := g.modifyScope id fun s => { s with isAlias := true }
  (g.inheritFrom target).leave.2

variable {m : Type → Type} [Monad m] [MonadLiftT (Except Fault) m]

/-- A typedef in the current scope. A name for itself is accepted and ignored; a name for a scope
also becomes a scope, so that its members are found. -/
def defineVia (g : ScopeGraph) (reuse : Reuse m) (type : CType) (name : Text) :
    m (Except TypedefError ScopeGraph) := do
  match g.redefinition? name with
  | some e => return .error e
  | none =>
    if type = name then return .ok g
    else
      let g' := match ← g.findScopeVia reuse type with
        | some target => g.standIn name target
        | none => g
      return .ok (g'.insertTypedef g'.current name ⟨type, false⟩)

def define (g : ScopeGraph) (type : CType) (name : Text) :
    Except Fault (Except TypedefError ScopeGraph) :=
  Remembering.afresh (g.defineVia .always type name)

/-- A class in the current scope. -/
def defineClass (g : ScopeGraph) (name : Text) : Except TypedefError ScopeGraph :=
  match g.redefinition? name with
  | some e => .error e
  | none => .ok (g.insertTypedef g.current name ⟨name, true⟩)

/-- The name under which `base` is defined, for a using-declaration of `qualified`. -/
def definedName? (g : ScopeGraph) (reuse : Reuse m) (qualified base : Text) :
    m (Option Text) := do
  return (← g.expansionVia reuse qualified).scope.bind fun id =>
    if g.nameOf id = [] then none else some (g.nameIn id base)

/-- A using-declaration: the last component of `qualified` names in the current scope what
`qualified` names. The scope that `qualified` names learns it too where it only inherits it, and a
name for a scope becomes a scope. -/
def declareUsingVia (g : ScopeGraph) (reuse : Reuse m) (qualified : Text) :
    m (Except TypedefError ScopeGraph) := do
  match QualifiedName.split qualified with
  | (none, _) => return .error (.notQualified qualified)
  | (some scope, base) =>
    match g.redefinition? base with
    | some e => return .error e
    | none =>
      let g := g.insertTypedef g.current base ⟨qualified, false⟩
      match ← g.definedName? reuse qualified base with
      | none => return .ok g
      | some defined =>
        let target ← g.findScopeVia reuse defined
        let g := match ← g.findScopeVia reuse scope with
          | some holder =>
            if (g.scope holder).typedefs.contains base then g
            else g.insertTypedef holder base ⟨defined, false⟩
          | none => g
        return .ok (match target with
          | some target => g.standIn base target
          | none => g)

def declareUsing (g : ScopeGraph) (qualified : Text) :
    Except Fault (Except TypedefError ScopeGraph) :=
  Remembering.afresh (g.declareUsingVia .always qualified)

/-- Takes a name out of the current scope and tells whether it was there. -/
def undefine (g : ScopeGraph) (name : Text) : Bool × ScopeGraph :=
  if (g.scope g.current).typedefs.contains name then
    (true, touch (g.modifyScope g.current fun s => { s with typedefs := s.typedefs.erase name }))
  else (false, g)

def isTypedef (g : ScopeGraph) (t : CType) : Except Fault Bool := return (← g.expand? t).isSome

def isClassFrom (g : ScopeGraph) : (budget : Nat) → CType → Except Fault Bool
  | 0, _ => .error .exhausted
  | n + 1, t => do
    let resolved ← CType.stripQualifiers (← g.resolve t)
    if !CType.isSimple resolved then return false
    if (← g.expansion resolved).scope.isSome then return true
    match ← CType.templateParts resolved with
    | some parts => if parts.stem = t then return false else g.isClassFrom n parts.stem
    | none => return false

/-- The type names a class, seen through typedefs and qualifiers. A template counts where its name
is a class. -/
def isClass (g : ScopeGraph) (t : CType) : Except Fault Bool := g.isClassFrom (g.budget + 1) t

end ScopeGraph

end BindingTypes
