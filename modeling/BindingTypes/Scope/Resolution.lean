import BindingTypes.Scope.Lookup
import BindingTypes.Scope.Reuse
import BindingTypes.Resolver

namespace BindingTypes.ScopeGraph

variable {m : Type → Type} [Monad m]

/-- One expansion of a type, and the scope whose table answered for its base. A class is found
without being expanded. -/
structure Step where
  type : Option CType := none
  scope : Option ScopeId := none
deriving DecidableEq

/-- The list with the first type that expands replaced. -/
def expandFirst {n : Nat} (expand : { p : CType // p.length < n } → m (Option CType)) :
    List { p : CType // p.length < n } → m (Option (List CType))
  | [] => return none
  | p :: ps => do
    match ← expand p with
    | some expanded => return some (expanded :: ps.map (·.1))
    | none => return (← expandFirst expand ps).map (p.1 :: ·)

/-- An expansion that was found through a qualified name is qualified itself where it names a
typedef of the scope that holds it. -/
def qualifyExpansion (g : ScopeGraph) (id : ScopeId) (expansion : CType) : CType :=
  if !QualifiedName.isQualified expansion && g.nameOf id ≠ [] && (g.lookup id expansion).isSome then
    g.nameIn id expansion
  else expansion

/-- What the tables say of a name: nothing at all where its scope is unknown. -/
def lookupName (g : ScopeGraph) (resolve : CType → m CType) (start : ScopeId) (name : Text) :
    m (Option (Option (CType × ScopeId))) := do
  match (g.scope start).typedefs.get? name with
  | some entry => return some (some (entry.type, start))
  | none =>
    match QualifiedName.split name with
    | (some scope, last) =>
      match ← g.findScopeFrom resolve start scope with
      | none => return none
      | some target =>
        return some ((g.lookup target last).map fun hit =>
          (g.qualifyExpansion hit.2 hit.1.type, hit.2))
    | (none, _) => return some ((g.lookup start name).map fun hit => (hit.1.type, hit.2))

variable [MonadLiftT (Except Fault) m]

/-- One expansion of a name that is looked up from `start`. A template name that is no typedef has
its first expandable argument expanded. -/
def expandName (g : ScopeGraph) (resolve : CType → m CType) (start : ScopeId) (name : CType)
    (expand : { p : CType // p.length < name.length } → m (Option CType)) : m Step := do
  match ← g.lookupName resolve start name with
  | none => return {}
  | some (some (found, scope)) =>
    return ⟨if found = name then none else some found, some scope⟩
  | some none =>
    match ← CType.templateWithin name with
    | none => return {}
    | some parts =>
      return ⟨(← expandFirst expand parts.arguments).map fun args =>
        parts.stem.1 ++ CType.angled args ++ parts.tail, none⟩

/-- One expansion of a base; a leading `::` starts at the global scope. -/
def expandBase (g : ScopeGraph) (resolve : CType → m CType) (base : CType)
    (expand : { p : CType // p.length < base.length } → m (Option CType)) : m Step :=
  if base.isSimple then
    match h : Text.after? base "::".toList with
    | some name =>
      g.expandName resolve globalScope name fun p =>
        expand ⟨p.1, by
          rw [Text.after?_eq_some_iff.mp h, List.length_append]
          exact Nat.lt_add_left _ p.2⟩
    | none => g.expandName resolve g.current base expand
  else if base.isFunction then do
    let parameters ← CType.argumentsWithin base
    return ⟨(← expandFirst expand parameters).map fun ps => CType.written 'f' (Text.commaJoin ps),
      none⟩
  else if base.isMemberPointer then do
    return ⟨(← expand (← CType.parameterWithin base)).map (CType.written 'm'), none⟩
  else return {}

/-- One expansion of a type. Where the base does not expand, a function or member-pointer element
before it may. -/
def expandStep (g : ScopeGraph) (resolve : CType → m CType) (t : CType) : m Step := do
  let ⟨(front, base), _bound⟩ ← CType.splitWithin t
  let found ← g.expandBase resolve base fun p => (·.type) <$> g.expandStep resolve p.1
  match found.type with
  | some expanded => return { found with type := some (front ++ expanded) }
  | none =>
    if _hf : front ≠ [] then
      if front.has "f(".toList || front.has "m(".toList then
        let inFront ← g.expandStep resolve front
        return { found with type := inFront.type.map (· ++ base) }
      else return found
    else return found
termination_by t.length
decreasing_by
  · exact Nat.lt_of_lt_of_le p.2 _bound.1
  · exact _bound.2 _hf

/-- Expansion until no typedef remains. Names with template arguments inside are resolved on their
own, to the given depth. -/
def resolveTo (g : ScopeGraph) (reuse : Reuse m) : (depth : Nat) → CType → m CType
  | 0, _ => Fault.exhausted.raise
  | n + 1, t =>
    reuse.resolved g t <|
      Resolver.chase (fun t => (·.type) <$> g.expandStep (g.resolveTo reuse n) t)
        (g.budget + 1) [] t

def resolveVia (g : ScopeGraph) (reuse : Reuse m) (t : CType) : m CType :=
  g.resolveTo reuse g.budget t

def expansionVia (g : ScopeGraph) (reuse : Reuse m) (t : CType) : m Step :=
  g.expandStep (g.resolveVia reuse) t

def findScopeVia (g : ScopeGraph) (reuse : Reuse m) (name : Text) : m (Option ScopeId) :=
  g.findScopeFrom (g.resolveVia reuse) g.current name

/-- Expansion until no typedef remains, seen from the current scope. -/
def resolve (g : ScopeGraph) (t : CType) : Except Fault CType :=
  Remembering.afresh (g.resolveVia .always t)

/-- One expansion of a type, seen from the current scope. -/
def expansion (g : ScopeGraph) (t : CType) : Except Fault Step :=
  Remembering.afresh (g.expansionVia .always t)

def expand? (g : ScopeGraph) (t : CType) : Except Fault (Option CType) :=
  (g.expansion t).map (·.type)

def resolver (g : ScopeGraph) : Resolver := ⟨g.expand?, g.resolve, g.budget⟩

/-- The scope a name means in the current scope. -/
def findScope (g : ScopeGraph) (name : Text) : Except Fault (Option ScopeId) :=
  Remembering.afresh (g.findScopeVia .always name)

end BindingTypes.ScopeGraph
