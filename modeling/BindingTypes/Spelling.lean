import BindingTypes.Text.Blank
import BindingTypes.CType.Constructor

namespace BindingTypes.CType

/-- What an element adds to a C declaration that is written from the inside out. -/
inductive Mark where
  /-- Written before what is there. -/
  | lead (text : Text)
  /-- Written before what is there, in brackets where a suffix follows. -/
  | operator (text : Text)
  /-- Written behind what is there. -/
  | suffix (text : Text)
deriving DecidableEq, Repr

def Mark.isSuffix : Mark → Bool
  | suffix _ => true
  | _ => false

/-- A declaration around `out`, the outermost element first. -/
def assemble : List Mark → Text → Text
  | [], out => out
  | .lead s :: marks, out => assemble marks (s ++ out)
  | .suffix s :: marks, out => assemble marks (out ++ s)
  | .operator s :: marks, out =>
    if (marks.head?.map Mark.isSuffix).getD false then
      assemble marks ('(' :: s ++ out ++ [')'])
    else assemble marks (s ++ out)

/-- A name with its first template arguments in C++ brackets; what follows them is kept. -/
def nameFrom (name : Text) (spell : { p : CType // p.length < name.length } → Except Fault Text) :
    Except Fault Text := do
  match ← templateWithin name with
  | none => return name
  | some parts =>
    let args ← parts.arguments.mapM spell
    return parts.stem.1 ++ '<' :: Text.commaJoin args ++ " >".toList ++ parts.tail

/-- The mark of an element whose arguments are spelled by `spell`. -/
def markFrom (element : Text)
    (spell : { p : CType // p.length < element.length } → Except Fault Text) :
    Except Fault Mark := do
  match Kind.of element with
  | .pointer => return .operator ['*']
  | .reference => return .operator ['&']
  | .memberPointer => return .operator ((← argument element) ++ "::*".toList)
  | .qualifier => return .lead ((← argument element) ++ [' '])
  | .array => return .suffix ('[' :: (← argument element) ++ [']'])
  | .function =>
    return .suffix ('(' :: Text.commaJoin (← (← argumentsWithin element).mapM spell) ++ [')'])
  | .base => return .lead ((← nameFrom element spell) ++ [' '])

/-- The C declaration of `id` with type `t`: `int (*x)[10]` for `p.a(10).int`. -/
def declare (t : CType) (id : Text) : Except Fault Text := do
  let marks ← (← elementsWithin t).mapM fun e =>
    if e.1 = varargs then pure (.lead "...".toList)
    else markFrom e.1 fun p => declare p.1 []
  return (assemble marks id).trimEnd
termination_by t.length
decreasing_by exact Nat.lt_of_lt_of_le p.2 e.2

/-- The C spelling of a type. -/
def spelling (t : CType) : Except Fault Text := declare t []

/-- A name with its template arguments spelled. -/
def nameSpelling (name : Text) : Except Fault Text := nameFrom name fun p => spelling p.1

/-- The mark of a single element. -/
def mark (element : Text) : Except Fault Mark := markFrom element fun p => spelling p.1

end BindingTypes.CType
