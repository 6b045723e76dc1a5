import BindingTypes.CType.Group
import BindingTypes.Text.Quoted

namespace BindingTypes.CType

def isPointer (t : CType) : Bool := t.startsWith "p.".toList

def isReference (t : CType) : Bool := t.startsWith "r.".toList

def isArray (t : CType) : Bool := t.startsWith "a(".toList

def isFunction (t : CType) : Bool := t.startsWith "f(".toList

def isQualifier (t : CType) : Bool := t.startsWith "q(".toList

def isMemberPointer (t : CType) : Bool := t.startsWith "m(".toList

def isEnum (t : CType) : Bool := t.startsWith "enum ".toList

/-- The type of the dots that end a parameter list. -/
def varargs : CType := "v(...)".toList

def isVarargs (t : CType) : Bool := t = varargs

/-- No dot stands outside angle brackets. -/
def simpleFrom : (angles : Nat) → Text → Bool
  | _, [] => true
  | angles, c :: cs =>
    if c = '<' then simpleFrom (angles + 1) cs
    else if c = '>' then simpleFrom (angles - 1) cs
    else if c = '.' ∧ angles = 0 then false
    else simpleFrom angles cs

/-- No constructor stands outside template arguments. -/
def isSimple (t : CType) : Bool := simpleFrom 0 t

/-- The name every type degrades to. -/
def wildcard : CType := "SWIGTYPE".toList

/-- The type without its qualifier elements. -/
def stripQualifiers (t : CType) : Except Fault CType :=
  (elements t).map fun es => (es.filter fun e => Kind.of e ≠ .qualifier).flatten

/-- The form that shows what kind of value it is. -/
def debugText (t : CType) : Text := "TypeString(".toList ++ t.quoted ++ [')']

end BindingTypes.CType
