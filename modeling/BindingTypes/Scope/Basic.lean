import BindingTypes.QualifiedName
import BindingTypes.CType.Element
import BindingTypes.Table

namespace BindingTypes

/-- Scopes are numbered in the order in which they were opened. -/
abbrev ScopeId := Nat

/-- What a typedef table says of a name. A class names itself. -/
structure TypedefEntry where
  type : CType
  isClass : Bool
deriving DecidableEq, Repr

/-- What a symbol table says of a name. -/
inductive Symbol where
  | enumerator
  | constant (value : Text)
  | other
deriving DecidableEq, Repr

/-- The global scope, a namespace, a class, or a stand-in for another scope. -/
structure Scope where
  /-- The qualified name; empty for the global scope. -/
  name : Text := []
  parent : Option ScopeId := none
  typedefs : Table TypedefEntry := ∅
  symbols : Option (Table Symbol) := none
  /-- Scopes searched after the scope's own table, in the order of their declaration. -/
  inherits : List ScopeId := []
  /-- Scopes brought in by a using-directive. -/
  usings : List ScopeId := []
  isAlias : Bool := false
deriving DecidableEq, Inhabited

/-- All scopes of a program, the names under which they are found, and the one that is open. -/
structure ScopeGraph where
  scopes : List Scope
  byName : Table ScopeId
  current : ScopeId
  /-- The number of changes so far. -/
  generation : Nat
  /-- The number of expansions a single question may take. -/
  budget : Nat
deriving DecidableEq

namespace ScopeGraph

def globalScope : ScopeId := 0

/-- Only the empty global scope. -/
def new (budget : Nat) : ScopeGraph :=
  ⟨[{}], (∅ : Table ScopeId).insert [] globalScope, globalScope, 0, budget⟩

/-- A number that was never given out names an empty scope. -/
def scope (g : ScopeGraph) (id : ScopeId) : Scope := g.scopes[id]?.getD {}

/-- The scope of a number that was given out. -/
def get (g : ScopeGraph) (id : ScopeId) : Except Fault Scope :=
  match g.scopes[id]? with
  | some s => .ok s
  | none => .error (.missingScope id)

def nameOf (g : ScopeGraph) (id : ScopeId) : Text := (g.scope id).name

/-- The name of `name` inside a scope. -/
def nameIn (g : ScopeGraph) (id : ScopeId) (name : Text) : Text :=
  QualifiedName.within (g.nameOf id) name

/-- A scope and the scopes around it, from the inside out. -/
def outwardFrom (g : ScopeGraph) : (fuel : Nat) → ScopeId → List ScopeId
  | 0, _ => []
  | n + 1, id =>
    id :: match (g.scope id).parent with
      | some parent => g.outwardFrom n parent
      | none => []

/-- No chain of enclosing scopes is longer than there are scopes. -/
def outward (g : ScopeGraph) (id : ScopeId) : List ScopeId := g.outwardFrom (g.scopes.length + 1) id

def touch (g : ScopeGraph) : ScopeGraph := { g with generation := g.generation + 1 }

def modifyScope (g : ScopeGraph) (id : ScopeId) (f : Scope → Scope) : ScopeGraph :=
  { g with scopes := g.scopes.modify id f }

/-- The name of a scope that was opened without one. -/
def unnamed : Text := "<unnamed>".toList

/-- The scope that opening `name` inside the current scope enters again. -/
def reopened? (g : ScopeGraph) (name : Text) : Option ScopeId := do
  guard (name ≠ unnamed)
  let id ← g.byName.get? (g.nameIn g.current name)
  guard ((g.scope id).parent = some g.current)
  return id

/-- Opens a scope inside the current one. A named scope that was opened there before is entered
again and keeps its tables. -/
def enter (g : ScopeGraph) (name : Option Text) : ScopeId × ScopeGraph :=
  let name := name.getD unnamed
  match g.reopened? name with
  | some id => (id, touch { g with current := id })
  | none =>
    let id := g.scopes.length
    let qualified := g.nameIn g.current name
    (id, touch { g with
      scopes := g.scopes ++ [{ name := qualified, parent := some g.current }]
      byName := g.byName.insert qualified id
      current := id })

/-- Leaves the current scope. The global scope cannot be left. -/
def leave (g : ScopeGraph) : Option ScopeId × ScopeGraph :=
  match (g.scope g.current).parent with
  | some parent => (some g.current, touch { g with current := parent })
  | none => (none, g)

/-- Goes to a scope, or to the global one, and tells which was current. -/
def select (g : ScopeGraph) (id : Option ScopeId) : ScopeId × ScopeGraph :=
  (g.current, touch { g with current := id.getD globalScope })

/-- The current scope searches `id` behind its own table. Nothing changes where it does already. -/
def inheritFrom (g : ScopeGraph) (id : ScopeId) : ScopeGraph :=
  if id = g.current ∨ id ∈ (g.scope g.current).inherits then g
  else touch (g.modifyScope g.current fun s => { s with inherits := s.inherits ++ [id] })

/-- A using-directive: `id` is inherited, and searched for the scopes inside it. -/
def useNamespace (g : ScopeGraph) (id : ScopeId) : ScopeGraph :=
  let g := g.inheritFrom id
  if id = g.current ∨ id ∈ (g.scope g.current).usings then touch g
  else touch (g.modifyScope g.current fun s => { s with usings := s.usings ++ [id] })

/-- Another name for a scope, inside the current one. -/
def aliasName (g : ScopeGraph) (name : Text) (id : ScopeId) : ScopeGraph :=
  touch { g with byName := g.byName.insert (g.nameIn g.current name) id }

/-- The symbol table of the current scope. -/
def attachSymbols (g : ScopeGraph) (symbols : Table Symbol) : ScopeGraph :=
  touch (g.modifyScope g.current fun s => { s with symbols := some symbols })

def dumpScope (g : ScopeGraph) (name : Text) (id : ScopeId) : Text :=
  let s := g.scope id
  "Type scope '".toList ++ name ++ "'\n".toList ++
    s.inherits.flatMap (fun i => "    Inherits from '".toList ++ g.nameOf i ++ "'\n".toList) ++
    List.replicate 61 '-' ++ ['\n'] ++
    s.typedefs.entries.flatMap fun e =>
      List.replicate (40 - e.1.length) ' ' ++ e.1 ++ " -> ".toList ++ e.2.type ++ ['\n']

/-- Every scope under each of its names, with the scopes it inherits and its typedefs. -/
def dump (g : ScopeGraph) : Text := g.byName.entries.flatMap fun e => g.dumpScope e.1 e.2

end ScopeGraph

end BindingTypes
