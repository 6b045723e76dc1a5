import BindingTypes.Scope.Basic
import BindingTypes.CType.Group

namespace BindingTypes.ScopeGraph

/-- The scope's own table, then the scopes it inherits from, then the one around it. Scopes on the
path that led here are not entered again. -/
def lookupAlong (g : ScopeGraph) (name : Text) :
    (fuel : Nat) → (path : List ScopeId) → ScopeId → Option (TypedefEntry × ScopeId)
  | 0, _, _ => none
  | n + 1, path, id =>
    if id ∈ path then none
    else
      let s := g.scope id
      match s.typedefs.get? name with
      | some entry => some (entry, id)
      | none =>
        match s.inherits.findSome? (g.lookupAlong name n (id :: path)) with
        | some hit => some hit
        | none => s.parent.bind (g.lookupAlong name n (id :: path))

/-- The typedef that `name` means in a scope, and the scope that holds it. A path without
repetition is no longer than there are scopes. -/
def lookup (g : ScopeGraph) (id : ScopeId) (name : Text) : Option (TypedefEntry × ScopeId) :=
  g.lookupAlong name (g.scopes.length + 1) [] id

/-- What the table of one scope says of a name. -/
def ownTypedef (g : ScopeGraph) (id : ScopeId) (name : Text) :
    Except Fault (Option TypedefEntry) :=
  (g.get id).map fun s => s.typedefs.get? name

/-- What a name means in a scope that was given out. -/
def visibleTypedef (g : ScopeGraph) (id : ScopeId) (name : Text) :
    Except Fault (Option (TypedefEntry × ScopeId)) :=
  (g.get id).map fun _ => g.lookup id name

/-- The first answer among the scopes that were not visited before. -/
def firstUnvisited (search : List ScopeId → ScopeId → Option ScopeId × List ScopeId) :
    List ScopeId → List ScopeId → Option ScopeId × List ScopeId
  | [], visited => (none, visited)
  | id :: ids, visited =>
    if id ∈ visited then firstUnvisited search ids visited
    else
      match search (id :: visited) id with
      | (some hit, visited) => (some hit, visited)
      | (none, visited) => firstUnvisited search ids visited

/-- A scope named `wanted` inside the given one, or inside one it uses. -/
def findWithin (g : ScopeGraph) (wanted : Text) :
    (fuel : Nat) → (visited : List ScopeId) → ScopeId → Option ScopeId × List ScopeId
  | 0, visited, _ => (none, visited)
  | n + 1, visited, id =>
    match g.byName.get? (g.nameIn id wanted) with
    | some hit => (some hit, visited)
    | none => firstUnvisited (g.findWithin wanted n) (g.scope id).usings visited

/-- The first answer on the way out. -/
def findOutward (g : ScopeGraph) (wanted : Text) : List ScopeId → List ScopeId → Option ScopeId
  | [], _ => none
  | id :: ids, visited =>
    match g.findWithin wanted (g.scopes.length + 1) visited id with
    | (some hit, _) => some hit
    | (none, visited) => g.findOutward wanted ids visited

/-- The scope that the plain name `wanted` means in a scope. -/
def findNamed (g : ScopeGraph) (start : ScopeId) (wanted : Text) : Option ScopeId :=
  g.findOutward wanted (g.outward start) []

/-- The scope a name means; a name with template arguments is resolved first. -/
def findScopeFrom {m : Type → Type} [Monad m] (g : ScopeGraph) (resolve : CType → m CType)
    (start : ScopeId) (wanted : Text) : m (Option ScopeId) := do
  let plain ← if CType.isTemplate wanted then resolve wanted else pure wanted
  return g.findNamed start plain

/-- The symbol an unqualified name means in the current scope. -/
def lookupOwnSymbol (g : ScopeGraph) (name : Text) : Option (Symbol × ScopeId) :=
  (g.outward g.current).findSome? fun id =>
    ((g.scope id).symbols.bind (·.get? name)).map (·, id)

end BindingTypes.ScopeGraph
