import BindingTypes.Resolver
import BindingTypes.Spelling

namespace BindingTypes.CType

/-- The type behind its leading qualifiers. -/
def dropQualifiers (t : CType) : Except Fault CType :=
  if _hq : isQualifier t = true then
    match _h : next t with
    | .error f => .error f
    | .ok r => dropQualifiers r.2
  else .ok t
termination_by t.length
decreasing_by
  refine next_rest_lt _h ?_
  rintro rfl
  simp [isQualifier, Text.startsWith, Text.after?] at _hq

/-- Elements of the assignable form. Behind a function element references, arrays and names stay
as they are; before it the first array and every reference become pointers. -/
def localElements (kept first : Bool) : List Text → List Text
  | [] => []
  | e :: es =>
    match Kind.of e with
    | .qualifier => localElements kept first es
    | .pointer | .memberPointer => e :: localElements kept false es
    | .reference => (if kept then e else "p.".toList) :: localElements kept false es
    | .array =>
      if first then (if kept then e else "p.".toList) :: localElements kept false es
      else e :: localElements kept false es
    | .function => e :: localElements true first es
    | .base =>
      (if e = "enum ".toList && !kept then "int".toList else e) :: localElements kept first es

/-- An expansion hides something that cannot be assigned to. -/
def isUnassignable (r : Resolver) (t : CType) : Except Fault Bool := do
  return (← isConst r t) || isArray t || isReference t

/-- The form of a type that a local variable can have. A simple type is expanded where its typedef
hides a constant, an array or a reference. -/
def localType (r : Resolver) (t : CType) : Except Fault CType := do
  let bare ← dropQualifiers t
  let visible ←
    if isSimple bare then
      match ← r.expand? bare with
      | some expanded => if ← isUnassignable r expanded then pure expanded else pure bare
      | none => pure bare
    else pure bare
  return (localElements false true (← elements visible)).flatten

/-- The declaration of a local variable `id` for a value of type `t`. -/
def localDeclaration (r : Resolver) (t : CType) (id : Text) : Except Fault Text := do
  declare (← localType r t) id

/-- Marks of a cast from the local form: the first array before any reference is written as a
pointer. Also tells whether a dimension had to be written. -/
def castMarks (first afterReference : Bool) : List (Kind × Mark) → List Mark × Bool
  | [] => ([], false)
  | (kind, m) :: rest =>
    match kind with
    | .pointer | .memberPointer =>
      let r := castMarks false afterReference rest
      (m :: r.1, r.2)
    | .reference =>
      let r := castMarks first true rest
      (m :: r.1, r.2)
    | .array =>
      if first && !afterReference then
        let r := castMarks false afterReference rest
        (.suffix "(*)".toList :: r.1, r.2)
      else
        let r := castMarks first afterReference rest
        (m :: r.1, true)
    | _ =>
      let r := castMarks first afterReference rest
      (m :: r.1, r.2)

/-- The type a cast names, and whether an enumeration behind a typedef asks for a cast. -/
def castSource (r : Resolver) (t : CType) : Except Fault (CType × Bool) := do
  match ← r.expand? t with
  | some expanded =>
    if ← isUnassignable r expanded then return (expanded, false)
    else return (t, isEnum expanded)
  | none => return (t, false)

/-- The expression that turns a local variable back into a value of type `t`. It is the bare name
where no conversion is needed; for a reference the local pointer is followed. -/
def castFromLocal (r : Resolver) (t : CType) (name : Option Text) : Except Fault Text := do
  let bare ← if isQualifier t then (do if ← isConst r t then rest t else pure t) else pure t
  let (source, enumeration) ← castSource r bare
  let es ← elements source
  let kinds := es.map Kind.of
  let (marks, dimensions) := castMarks true false (kinds.zip (← es.mapM mark))
  let needed := enumeration || dimensions || es.any fun e =>
    Kind.of e = .qualifier || (Kind.of e = .base && isEnum e)
  let cast := if needed then '(' :: assemble marks [] ++ [')'] else []
  match name with
  | none => return cast
  | some name =>
    if kinds.contains .reference then
      return (if kinds.contains .array then [] else cast) ++ '*' :: name
    else return cast ++ name

/-- The expression that turns the value `name` of type `t` into its local form. -/
def castToLocal (r : Resolver) (t : CType) (name : Option Text) : Except Fault Text := do
  let name := name.getD []
  if isArray t || isQualifier t then return '(' :: (← localDeclaration r t []) ++ ')' :: name
  else if isReference t then return '(' :: (← spelling t) ++ ')' :: name
  else return name

end BindingTypes.CType
