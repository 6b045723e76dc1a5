import BindingTypes.Resolver

namespace BindingTypes.CType

/-- A dimension is empty, and the first is not yet `ANY`. -/
def hasEmptyDimension (t : CType) : Except Fault Bool := do
  let dimensions ← (← cutArrays t).1.mapM argument
  return dimensions.contains [] && !t.startsWith "a(ANY).".toList

/-- `head` before the generalized form of `inner`. -/
def generalizeUnder (again : CType → Except Fault (Option CType)) (head : Text) (inner : CType) :
    Except Fault CType := do
  if inner = wildcard then return head ++ wildcard
  let (qualifier, body) ← if isQualifier inner then next inner else pure ([], inner)
  if isQualifier inner && body.has wildcard then return head ++ body
  match ← again body with
  | none => return head ++ body
  | some general =>
    if body = qualifier ++ general then return head ++ general
    else return head ++ qualifier ++ general

/-- The innermost part of an unqualified type, loosened. -/
def loosen (again : CType → Except Fault (Option CType)) (t : CType) : Except Fault CType := do
  if t = "p.SWIGTYPE".toList || t = "r.SWIGTYPE".toList then return wildcard
  else if isPointer t then generalizeUnder again "p.".toList (← delPointer t)
  else if isReference t then generalizeUnder again "r.".toList (← delReference t)
  else if t = "a().SWIGTYPE".toList then return "p.SWIGTYPE".toList
  else if t = "a(ANY).SWIGTYPE".toList then return "a().SWIGTYPE".toList
  else if isArray t then
    let head := if ← hasEmptyDimension t then "a().".toList else "a(ANY).".toList
    generalizeUnder again head (← delArray t)
  else if t = "m(CLASS).SWIGTYPE".toList then return "p.SWIGTYPE".toList
  else if isMemberPointer t then return "m(CLASS).SWIGTYPE".toList
  else if t = "enum SWIGTYPE".toList then return wildcard
  else if isEnum t then return "enum SWIGTYPE".toList
  else return wildcard

def generalizeFrom (r : Resolver) : (budget : Nat) → CType → Except Fault (Option CType)
  | 0, _ => .error .exhausted
  | n + 1, t => do
    if isVarargs t then return none
    let resolved ← r.resolve t
    let body ← if isQualifier resolved then rest resolved else pure resolved
    if isQualifier resolved && body.has wildcard then return some body
    let general ← loosen (generalizeFrom r n) body
    return if general = t then none else some general

/-- The next more general type; the wildcard and varargs have none. -/
def generalize? (r : Resolver) (t : CType) : Except Fault (Option CType) :=
  generalizeFrom r (r.budget + t.length + 1) t

end BindingTypes.CType
