import BindingTypes.CType.Constructor
import BindingTypes.QualifiedName
import BindingTypes.Text.Identifier

namespace BindingTypes.CType

/-- A template name: `pat` in front becomes the stem of `rep`, and each argument is renamed. -/
def renameTemplate (pat rep : Text) (again : CType → Except Fault CType) (element : Text) :
    Except Fault Text := do
  let renamed ←
    if element.startsWith pat then pure (element.replaceFirstWhole pat (← templateStem rep))
    else pure element
  let stem ← templateStem renamed
  let args ← (← templateArguments renamed).mapM again
  return stem ++ angled args ++ (← templateTail renamed)

/-- One element with `pat` renamed; `again` renames the types inside. -/
def renameElement (pat rep : Text) (again : CType → Except Fault CType) (element : Text) :
    Except Fault Text := do
  if isSimple element then
    if element = pat then return rep
    else if isTemplate element then renameTemplate pat rep again element
    else
      match QualifiedName.cutFirst? 0 element with
      | some (first, suffix) => return (← again first) ++ "::".toList ++ (← again suffix)
      | none => return element
  else
    match Kind.of element with
    | .function => return written 'f' (Text.commaJoin (← (← arguments element).mapM again))
    | .array => return element.replaceWhole pat rep
    | _ => return element

def renameFrom (pat rep : Text) : (budget : Nat) → CType → Except Fault CType
  | 0, _ => .error .exhausted
  | n + 1, t => do
    if pat = [] || !t.has pat then return t
    if t = pat then return rep
    concatMap t fun e => renameElement pat rep (renameFrom pat rep n) e.1

/-- The type name `pat` becomes `rep` wherever it names a type: as a base, as the head of a
template, in template arguments, in qualified names, in function parameters and in array
dimensions. Qualifiers and member-pointer classes stay.

A name that brings new template brackets with it can make the renamed arguments as long as the
type they came from, so the nesting is bounded by the lengths of both texts. -/
def rename (t : CType) (pat rep : Text) : Except Fault CType :=
  renameFrom pat rep ((t.length + 1) * (rep.length + 2)) t

end BindingTypes.CType
