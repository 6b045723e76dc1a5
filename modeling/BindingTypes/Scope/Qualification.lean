import BindingTypes.Scope.Resolution
import BindingTypes.Text.Identifier

namespace BindingTypes.ScopeGraph

variable {m : Type → Type} [Monad m] [MonadLiftT (Except Fault) m]

/-- The symbol a name means. A qualified name is looked up in the table of the scope it names. -/
def lookupSymbolVia (g : ScopeGraph) (reuse : Reuse m) (name : Text) :
    m (Option (Symbol × ScopeId)) := do
  match QualifiedName.split name with
  | (none, _) => return g.lookupOwnSymbol name
  | (some scope, last) =>
    let found ← if scope = [] then pure (some globalScope) else g.findScopeVia reuse scope
    return found.bind fun id => ((g.scope id).symbols.bind (·.get? last)).map (·, id)

/-- Symbols behind a template value: an enumerator gets the name of its scope, a constant its
value. -/
def qualifyValueFrom (g : ScopeGraph) (reuse : Reuse m) :
    (budget : Nat) → (seen : List Text) → Text → m Text
  | 0, _, _ => Fault.exhausted.raise
  | n + 1, seen, value =>
    if seen.contains value then return value
    else do
      match ← g.lookupSymbolVia reuse value with
      | some (.enumerator, id) =>
        if g.nameOf id = [] then return value
        else
          g.qualifyValueFrom reuse n (value :: seen)
            (g.nameOf id ++ "::".toList ++ QualifiedName.last value)
      | some (.constant other, _) => g.qualifyValueFrom reuse n (value :: seen) other
      | _ => return value

def qualifyValue (g : ScopeGraph) (reuse : Reuse m) (value : Text) : m Text :=
  g.qualifyValueFrom reuse (g.budget + 1) [] value

/-- An identifier of an expression. One that stands behind a digit or a colon stays as it is. -/
def qualifyIdentifier (g : ScopeGraph) (glued : Bool) (name : Text) : Text :=
  match g.lookupOwnSymbol name with
  | some (.enumerator, id) | some (.constant _, id) =>
    if glued || g.nameOf id = [] then name else g.nameOf id ++ "::".toList ++ name
  | _ => name

/-- The enumerators and constants of an expression under their qualified names. -/
def qualifyExpression (g : ScopeGraph) (glued : Bool) (t : Text) : Text :=
  match t with
  | [] => []
  | c :: cs =>
    if isIdentStart c then
      g.qualifyIdentifier glued (c :: cs.takeWhile isIdentChar) ++
        g.qualifyExpression false (cs.dropWhile isIdentChar)
    else c :: g.qualifyExpression (isIdentChar c || c = ':') cs
termination_by t.length
decreasing_by
  · have := (List.dropWhile_sublist isIdentChar (l := cs)).length_le
    simp only [List.length_cons]
    omega
  · simp

/-- A bare name that names a scope around the current one, or inside such a scope. -/
def qualifyScopeName (g : ScopeGraph) (name : Text) : Text :=
  ((g.outward g.current).findSome? fun id =>
    let candidate := g.nameIn id name
    if g.byName.contains candidate then some candidate else none).getD name

/-- A name without template arguments. A typedef gets the name of the scope that holds it; a
qualified name has its scope qualified. -/
def qualifyPlain (g : ScopeGraph) (name : Text)
    (again : { p : CType // p.length < name.length } → m CType) : m Text :=
  match g.lookup g.current name with
  | some (_, id) => return g.nameIn id name
  | none =>
    match h : QualifiedName.cutLast? 0 name with
    | some (scope, last) => do
      return (← again ⟨scope, QualifiedName.length_lt_of_cutLast? h⟩) ++ "::".toList ++ last
    | none => return g.qualifyScopeName name

/-- A template argument. One that names no type is a value. -/
def qualifyArgument (g : ScopeGraph) (reuse : Reuse m) {n : Nat}
    (again : { p : CType // p.length < n } → m CType)
    (argument : { p : CType // p.length < n }) : m Text := do
  let qualified ← again argument
  if qualified = argument.1 then g.qualifyValue reuse argument.1 else return qualified

/-- A single name. -/
def qualifyName (g : ScopeGraph) (reuse : Reuse m) (name : Text)
    (again : { p : CType // p.length < name.length } → m CType) : m Text := do
  match ← CType.templateWithin name with
  | some parts =>
    let stem ← again parts.stem
    let args ← parts.arguments.mapM (g.qualifyArgument reuse again)
    return stem ++ CType.angled args ++ parts.tail
  | none =>
    match h : Text.after? name "enum ".toList with
    | some bare =>
      let qualified ← g.qualifyPlain bare fun p => again ⟨p.1, by
        rw [Text.after?_eq_some_iff.mp h, List.length_append]
        exact Nat.lt_add_left _ p.2⟩
      return "enum ".toList ++ qualified
    | none => g.qualifyPlain name again

/-- A single element. A leading `::` of a name is dropped. -/
def qualifyElement (g : ScopeGraph) (reuse : Reuse m) (element : Text)
    (again : { p : CType // p.length < element.length } → m CType) : m Text := do
  if CType.isSimple element then
    let qualified ← g.qualifyName reuse element again
    return (Text.after? qualified "::".toList).getD qualified
  else if CType.isFunction element then
    return CType.written 'f' (Text.commaJoin (← (← CType.argumentsWithin element).mapM again))
  else if CType.isArray element then
    return CType.written 'a' (g.qualifyExpression false (← CType.parameter element))
  else return element

/-- A type with every name in it fully qualified. -/
def qualifyVia (g : ScopeGraph) (reuse : Reuse m) (t : CType) : m CType :=
  reuse.qualified g t <|
    CType.concatMap t fun e => g.qualifyElement reuse e.1 fun p => g.qualifyVia reuse p.1
termination_by t.length
decreasing_by exact Nat.lt_of_lt_of_le p.2 e.2

def canonicalVia (g : ScopeGraph) (reuse : Reuse m) (t : CType) : m CType := do
  g.qualifyVia reuse (← g.resolveVia reuse t)

def lookupSymbol (g : ScopeGraph) (name : Text) : Except Fault (Option (Symbol × ScopeId)) :=
  Remembering.afresh (g.lookupSymbolVia .always name)

/-- A type with every name in it fully qualified, as seen from the current scope. -/
def qualify (g : ScopeGraph) (t : CType) : Except Fault CType :=
  Remembering.afresh (g.qualifyVia .always t)

/-- The form under which equal types have equal text: resolved, then qualified. -/
def canonical (g : ScopeGraph) (t : CType) : Except Fault CType :=
  Remembering.afresh (g.canonicalVia .always t)

end BindingTypes.ScopeGraph
