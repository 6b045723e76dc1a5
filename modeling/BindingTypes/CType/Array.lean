import BindingTypes.CType.Constructor

namespace BindingTypes.CType

/-- The leading array elements, and the type of what they hold. No element behind the first that
is no array is looked at. -/
def cutArrays (t : CType) : Except Fault (List Text × CType) :=
  if _ht : t = [] then .ok ([], [])
  else
    match _h : next t with
    | .error f => .error f
    | .ok (element, rest) =>
      if Kind.of element = .array then
        (cutArrays rest).map fun r => (element :: r.1, r.2)
      else .ok ([], t)
termination_by t.length
decreasing_by exact next_rest_lt _h _ht

/-- The leading array elements as one text, and the type of what they hold. -/
def popArrays (t : CType) : Except Fault (CType × CType) :=
  (cutArrays t).map fun r => (r.1.flatten, r.2)

/-- The type of what the leading arrays hold. -/
def arrayElement (t : CType) : Except Fault CType := (cutArrays t).map (·.2)

/-- The number of leading array dimensions. -/
def dimensionCount (t : CType) : Except Fault Nat := (cutArrays t).map (·.1.length)

/-- The text of leading dimension `n`. Nothing behind that element is looked at. -/
def dimension? : (t : CType) → (n : Nat) → Except Fault (Option Text)
  | [], _ => .ok none
  | t@(_ :: _), n => do
    let (element, rest) ← next t
    if Kind.of element = .array then
      match n with
      | 0 => return some (← argument element)
      | n + 1 => dimension? rest n
    else return none
termination_by _ n => n

/-- Another text for element `n`, if that is an array. -/
def setDimension (t : CType) (n : Nat) (dimension : Text) : Except Fault CType :=
  (elements t).map fun es => (es.mapIdx fun i e =>
    if i = n ∧ Kind.of e = .array then written 'a' dimension else e).flatten

end BindingTypes.CType
