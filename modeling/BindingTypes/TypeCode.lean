import BindingTypes.Resolver

namespace BindingTypes

/-- A coarse classification of types. -/
inductive TypeCode where
  | bool | char | schar | uchar | short | ushort | int | uint | long | ulong | longLong | ulongLong
  | float | double | void
  /-- A pointer to characters. -/
  | string
  | pointer | reference | array | memberPointer | function | varargs
  /-- A class or an unknown name. -/
  | user
  /-- A qualifier with nothing behind it. -/
  | error
deriving DecidableEq, Repr

namespace TypeCode

def primitives : List (String × TypeCode) :=
  [("int", .int), ("long", .long), ("short", .short), ("unsigned", .uint),
    ("unsigned int", .uint), ("unsigned short", .ushort), ("unsigned long", .ulong),
    ("char", .char), ("signed char", .schar), ("unsigned char", .uchar), ("float", .float),
    ("double", .double), ("void", .void), ("bool", .bool), ("long long", .longLong),
    ("unsigned long long", .ulongLong), ("v(...)", .varargs)]

/-- The code of a name that needs no look-up. -/
def primitive? (name : Text) : Option TypeCode :=
  match primitives.find? fun p => p.1.toList = name with
  | some p => some p.2
  | none => if CType.isEnum name then some .int else none

def text : TypeCode → String
  | bool => "bool"
  | char => "char"
  | schar => "schar"
  | uchar => "uchar"
  | short => "short"
  | ushort => "ushort"
  | int => "int"
  | uint => "uint"
  | long => "long"
  | ulong => "ulong"
  | longLong => "longlong"
  | ulongLong => "ulonglong"
  | float => "float"
  | double => "double"
  | void => "void"
  | string => "string"
  | pointer => "pointer"
  | reference => "reference"
  | array => "array"
  | memberPointer => "mpointer"
  | function => "function"
  | varargs => "varargs"
  | user => "user"
  | error => "error"

end TypeCode

namespace CType

/-- Pointers and qualifiers are looked through; any other constructor decides. -/
def codeFrom (r : Resolver) (budget : Nat) (seen : List CType) (t : CType) :
    Except Fault TypeCode :=
  if _hp : isPointer t = true then do
    let code ← codeFrom r budget seen (t.drop 2)
    return if code = .char then .string else .pointer
  else if isArray t then .ok .array
  else if isReference t then .ok .reference
  else if isMemberPointer t then .ok .memberPointer
  else if _hq : isQualifier t = true then
    match _h : next t with
    | .error f => .error f
    | .ok r' => if r'.2 = [] then .ok .error else codeFrom r budget seen r'.2
  else if isFunction t then .ok .function
  else
    match TypeCode.primitive? t with
    | some code => .ok code
    | none =>
      if seen.contains t then .ok .user
      else
        match r.expand? t with
        | .error f => .error f
        | .ok none => .ok .user
        | .ok (some expanded) =>
          match budget with
          | 0 => .error .exhausted
          | n + 1 => codeFrom r n (t :: seen) expanded
termination_by (budget, t.length)
decreasing_by
  · apply Prod.Lex.right
    obtain ⟨rest, rfl⟩ := Text.startsWith_iff.mp _hp
    have two : "p.".toList.length = 2 := rfl
    simp only [List.length_drop, List.length_append]
    omega
  · apply Prod.Lex.right
    refine next_rest_lt _h ?_
    rintro rfl
    simp [isQualifier, Text.startsWith, Text.after?] at _hq
  · exact Prod.Lex.left _ _ (by omega)

/-- The code of a type, typedefs of unknown names followed. -/
def code (r : Resolver) (t : CType) : Except Fault TypeCode := codeFrom r r.budget [] t

end CType

end BindingTypes
