import BindingTypes.Text.Basic

namespace BindingTypes

/-- An ASCII letter, a digit or an underscore. -/
def isIdentChar (c : Char) : Bool := c.isAlphanum || c = '_'

def isIdentStart (c : Char) : Bool := c.isAlpha || c = '_'

namespace Text

/-- What follows `pat` at the start of a text, where no identifier character may follow it. -/
def afterWhole? (t pat : Text) : Option Text :=
  match after? t pat with
  | some (c :: rest) => if isIdentChar c then none else some (c :: rest)
  | r => r

/-- The text before and behind the first whole occurrence of a non-empty `pat`: no identifier
character stands on either side. `glued` tells whether one stands before the text. -/
def cutWhole? (pat : Text) (glued : Bool) : Text → Option (Text × Text)
  | [] => none
  | c :: cs =>
    match if glued then none else afterWhole? (c :: cs) pat with
    | some rest => some ([], rest)
    | none => (cutWhole? pat (isIdentChar c) cs).map fun r => (c :: r.1, r.2)

def hasWhole (t pat : Text) : Bool := pat ≠ [] && (cutWhole? pat false t).isSome

/-- Only the first whole occurrence of `pat` becomes `rep`. -/
def replaceFirstWhole (t pat rep : Text) : Text :=
  if pat = [] then t
  else
    match cutWhole? pat false t with
    | some (front, rest) => front ++ rep ++ rest
    | none => t

/-- Whole occurrences become `rep`; the number counts the characters of an occurrence still to be
passed over. -/
def replaceWholeFrom (pat rep : Text) : Bool → Nat → Text → Text
  | _, _, [] => []
  | _, n + 1, c :: cs => replaceWholeFrom pat rep (isIdentChar c) n cs
  | glued, 0, c :: cs =>
    if !glued && (afterWhole? (c :: cs) pat).isSome then
      rep ++ replaceWholeFrom pat rep (isIdentChar c) (pat.length - 1) cs
    else c :: replaceWholeFrom pat rep (isIdentChar c) 0 cs

/-- Every whole occurrence of `pat` becomes `rep`. -/
def replaceWhole (t pat rep : Text) : Text :=
  if pat = [] then t else replaceWholeFrom pat rep false 0 t

end Text

end BindingTypes
