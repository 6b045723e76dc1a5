import BindingTypes.CType.Shape

namespace BindingTypes.CType

/-- One element that builds a type from another. -/
inductive Constructor where
  | pointer
  | reference
  | array (dimension : Text)
  | function (parameters : List CType)
  | qualifier (words : Text)
  | memberPointer (owner : CType)
deriving DecidableEq, Repr

/-- A letter, its argument in parentheses, and the dot that ends an element. -/
def written (letter : Char) (argument : Text) : Text :=
  letter :: '(' :: (argument ++ ").".toList)

def Constructor.text : Constructor → Text
  | pointer => "p.".toList
  | reference => "r.".toList
  | array dimension => written 'a' dimension
  | function parameters => written 'f' (Text.commaJoin parameters)
  | qualifier words => written 'q' words
  | memberPointer owner => written 'm' owner

/-- The constructor an element writes; a base writes none. -/
def Constructor.ofElement? (element : Text) : Except Fault (Option Constructor) :=
  match Kind.of element with
  | .pointer => .ok (some pointer)
  | .reference => .ok (some reference)
  | .array => (argument element).map fun a => some (array a)
  | .function => (arguments element).map fun ps => some (function ps)
  | .qualifier => (argument element).map fun q => some (qualifier q)
  | .memberPointer => (argument element).map fun c => some (memberPointer c)
  | .base => .ok none

/-- An element in front of a type, with a dot between them where the element has none. -/
def push (t : CType) (element : Text) : CType :=
  if element = [] then t
  else if t ≠ [] && !element.endsWith ['.'] then element ++ '.' :: t
  else element ++ t

def apply (c : Constructor) (t : CType) : CType := push t c.text

/-- The outermost constructor and the type behind it; a base has none. -/
def pop? (t : CType) : Except Fault (Option (Constructor × CType)) := do
  let (element, rest) ← next t
  return (← Constructor.ofElement? element).map (·, rest)

/-- The outermost element and the type behind it. -/
def popElement? (t : CType) : Except Fault (Option (Text × CType)) :=
  if t = [] then .ok none else (next t).map some

def addPointer (t : CType) : CType := apply .pointer t

def addReference (t : CType) : CType := apply .reference t

def addArray (t : CType) (dimension : Text) : CType := apply (.array dimension) t

def addQualifier (t : CType) (words : Text) : CType := apply (.qualifier words) t

def addFunction (t : CType) (parameters : List CType) : CType := apply (.function parameters) t

def addMemberPointer (t : CType) (owner : CType) : CType := apply (.memberPointer owner) t

/-- Template arguments behind a name. -/
def addTemplate (t : CType) (args : List CType) : CType := t ++ angled args

/-- The type behind the outermost pointer; a qualifier of that pointer goes with it. -/
def delPointer (t : CType) : Except Fault CType := do
  let pointer ← if isQualifier t then rest t else pure t
  match Text.after? pointer "p.".toList with
  | some inner => return inner
  | none => throw (.malformed t .notPointer)

def delReference (t : CType) : Except Fault CType :=
  match Text.after? t "r.".toList with
  | some inner => .ok inner
  | none => .error (.malformed t .notReference)

/-- The type behind the outermost array dimension. -/
def delArray (t : CType) : Except Fault CType :=
  if isArray t then rest t else .error (.malformed t .notArray)

/-- The outermost function element and its return type. A qualifier before the function, as
of a constant member function, is moved behind it. -/
def popFunction (t : CType) : Except Fault (CType × CType) := do
  let (qualifier, body) ← if isQualifier t then next t else pure ([], t)
  if isFunction body then
    let (function, result) ← next body
    return (function ++ qualifier, result)
  else throw (.malformed t .notFunction)

/-- The parameter types of the outermost element. -/
def functionParameters (t : CType) : Except Fault (List CType) := do arguments (← first t)

end BindingTypes.CType
