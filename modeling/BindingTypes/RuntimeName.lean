import BindingTypes.LocalType

namespace BindingTypes.CType

/-- Brackets and operators of a name each have a letter of their own. -/
def nameChar (c : Char) : Char :=
  match c with
  | '<' => 'T'
  | '>' => 't'
  | '*' => 'p'
  | '[' => 'a'
  | ']' => 'A'
  | '&' => 'R'
  | '(' => 'f'
  | ')' => 'F'
  | c => if c.isAlphanum then c else '_'

def constructorChar (c : Char) : Char := if c.isAlphanum then c else '_'

/-- The words that only tag a name. -/
def tagWords : List Text :=
  ["struct ".toList, "class ".toList, "union ".toList, "enum ".toList]

/-- The identifier that stands for a type at run time. The type is resolved and brought into its
local form first, so that `const Foo &` and `Foo *` share one. -/
def runtimeName (r : Resolver) (t : CType) : Except Fault Text := do
  let (front, base) ← split (← localType r (← r.resolve t))
  let name ← if isTemplate base then nameSpelling base else pure base
  let untagged := tagWords.foldl (fun name word => name.replaceAll word []) name
  return '_' :: front.map constructorChar ++ untagged.map nameChar

end BindingTypes.CType
