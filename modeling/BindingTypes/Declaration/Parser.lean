import BindingTypes.Declaration.Token
import BindingTypes.CType.Constructor

namespace BindingTypes.Declaration

/-- Why a text is no declaration. -/
inductive DeclarationError where
  | empty
  | unexpected (found : Text) (offset : Nat) (text : Text)
  | unexpectedEnd (text : Text)
  | missingBase (text : Text)
deriving DecidableEq, Repr

def DeclarationError.message : DeclarationError → String
  | empty => "empty type declaration"
  | unexpected found offset text =>
    "unexpected `" ++ String.ofList found ++ "` at offset " ++ toString offset ++ " in `" ++
      String.ofList text ++ "`"
  | unexpectedEnd text => "unexpected end of `" ++ String.ofList text ++ "`"
  | missingBase text => "no base type in `" ++ String.ofList text ++ "`"

def builtinWords : List Text :=
  ["signed", "unsigned", "short", "long", "int", "char", "float", "double", "void", "bool",
    "wchar_t"].map String.toList

def tagKeywords : List Text := ["struct", "class", "union", "enum", "typename"].map String.toList

def qualifierWords : List Text := ["const", "volatile"].map String.toList

/-- A token that can begin a name. -/
def startsName (t : Text) : Bool := (t.head?.map isIdentStart).getD false

def isWord (t : Text) : Bool := (t.head?.map isIdentChar).getD false

/-- The last word that signs a type. -/
def signWord (words : List Text) : Option Text :=
  (words.filter fun w => w = "signed".toList || w = "unsigned".toList).getLast?

/-- The last word that is neither sign nor size. -/
def coreWord (words : List Text) : Option Text :=
  (words.filter fun w => String.ofList w ∉ ["signed", "unsigned", "short", "long"]).getLast?

/-- One spelling for all orders of the same builtin words. -/
def canonicalBuiltin (words : List Text) : Text :=
  let sign := signWord words
  let core := coreWord words
  let shorts := if words.contains "short".toList then ["short".toList] else []
  let longs := words.filter (· = "long".toList)
  let sized := shorts ++ longs
  let signs :=
    if sign = some "unsigned".toList then ["unsigned".toList]
    else if sign = some "signed".toList && core = some "char".toList then ["signed".toList]
    else []
  let cores :=
    match core with
    | some word => if word = "int".toList && !sized.isEmpty then [] else [word]
    | none => if sized.isEmpty then ["int".toList] else []
  List.intercalate [' '] (signs ++ sized ++ cores)

/-- A parser reads tokens and leaves the rest. -/
abbrev Parse (α : Type) := List Token → Except DeclarationError (α × List Token)

/-- The error at the next token. -/
def unexpectedHere {α : Type} (source : Text) : List Token → Except DeclarationError α
  | [] => .error (.unexpectedEnd source)
  | token :: _ => .error (.unexpected token.text token.offset source)

def expect (source : Text) (want : Text) : List Token → Except DeclarationError (List Token)
  | token :: rest =>
    if token.text = want then .ok rest
    else .error (.unexpected token.text token.offset source)
  | [] => .error (.unexpectedEnd source)

def nextIs (want : Text) : List Token → Bool
  | token :: _ => token.text = want
  | [] => false

def nextStartsName : List Token → Bool
  | token :: _ => startsName token.text
  | [] => false

/-- The text up to a token of `stops` outside brackets, a blank only between words. -/
def rawUntil (source : Text) (stops : List Text) :
    (depth : Nat) → (afterWord : Bool) → Parse Text
  | _, _, [] => .error (.unexpectedEnd source)
  | depth, afterWord, token :: rest =>
    if depth = 0 ∧ stops.contains token.text then .ok ([], token :: rest)
    else
      let opens := token.text = ['('] || token.text = ['[']
      let closes := token.text = [')'] || token.text = [']']
      if closes && depth = 0 then .error (.unexpected token.text token.offset source)
      else
        let depth' := if opens then depth + 1 else if closes then depth - 1 else depth
        let gap := if afterWord && isWord token.text then [' '] else []
        (rawUntil source stops depth' (isWord token.text) rest).map fun r =>
          (gap ++ token.text ++ r.1, r.2)

/-- The tokens behind `Class::` of a member-pointer operator, and the class. -/
def memberPath : List Token → Option (Text × List Token)
  | name :: colons :: rest =>
    if startsName name.text && colons.text = "::".toList then
      match rest with
      | [] => none
      | star :: rest' =>
        if star.text = ['*'] then some (name.text, rest')
        else (memberPath (star :: rest')).map fun r => (name.text ++ "::".toList ++ r.1, r.2)
    else none
  | _ => none

/-- The class of a member-pointer operator `Class::*` at the cursor, and what follows it. -/
def memberPointer? : List Token → Option (Text × List Token)
  | [] => none
  | token :: rest =>
    if token.text = "::".toList then (memberPath rest).map fun r => ("::".toList ++ r.1, r.2)
    else memberPath (token :: rest)

/-- The constructors written before a declared name, the innermost operator first. -/
def pointers : (fuel : Nat) → (inner : CType) → List Token → CType × List Token
  | 0, inner, tokens => (inner, tokens)
  | n + 1, inner, tokens =>
    match tokens with
    | [] => (inner, [])
    | token :: rest =>
      if token.text = ['*'] then pointers n ("p.".toList ++ inner) rest
      else if token.text = ['&'] then pointers n ("r.".toList ++ inner) rest
      else if qualifierWords.contains token.text then
        pointers n (CType.written 'q' token.text ++ inner) rest
      else
        match memberPointer? (token :: rest) with
        | some (owner, rest') => pointers n (CType.written 'm' owner ++ inner) rest'
        | none => (inner, token :: rest)

/-- Qualifiers behind a parameter list. -/
def trailingQualifiers : List Token → CType × List Token
  | [] => ([], [])
  | token :: rest =>
    if qualifierWords.contains token.text then
      let r := trailingQualifiers rest
      (CType.written 'q' token.text ++ r.1, r.2)
    else ([], token :: rest)

/-- A parenthesis at the cursor groups a declarator and opens no parameter list. -/
def opensGroup : List Token → Bool
  | token :: rest =>
    token.text = ['('] && (nextIs ['*'] rest || nextIs ['&'] rest || (memberPointer? rest).isSome)
  | [] => false

/-- What a list of specifiers has said so far. -/
structure Specifiers where
  qualifiers : List Text := []
  builtin : List Text := []
  name : Option Text := none

/-- The type named by the specifiers, its qualifiers around it. -/
def Specifiers.type (source : Text) (s : Specifiers) : Except DeclarationError CType := do
  let base ←
    if s.builtin = [] then
      match s.name with
      | some name => pure name
      | none => throw (.missingBase source)
    else pure (canonicalBuiltin s.builtin)
  return s.qualifiers.foldr (fun q t => CType.addQualifier t q) base

/-- An argument text that is empty or holds an opening angle bracket without its closing one. -/
def isBadArgument (raw : Text) : Bool := raw = [] || raw.count '>' < raw.count '<'

/-- A template argument copied as it is written. -/
def rawArgument (source : Text) : Parse Text := fun tokens => do
  let (raw, rest) ← rawUntil source [[','], ['>']] 0 false tokens
  if isBadArgument raw then unexpectedHere source rest else return (raw, rest)

mutual

/-- A declaration: the dots of an open parameter list, or specifiers and a declarator. -/
def declaration (source : Text) : (fuel : Nat) → Parse CType
  | 0, _ => .error (.unexpectedEnd source)
  | n + 1, tokens =>
    if nextIs "...".toList tokens then .ok (CType.varargs, tokens.drop 1)
    else do
      let (base, tokens) ← specifiers source n {} tokens
      let (declared, tokens) ← declarator source n tokens
      return (CType.push base declared, tokens)

def specifiers (source : Text) : (fuel : Nat) → Specifiers → Parse CType
  | 0, _, _ => .error (.unexpectedEnd source)
  | n + 1, s, tokens =>
    match tokens with
    | [] => (s.type source).map (·, [])
    | token :: rest =>
      let nothingNamed := s.name.isNone && s.builtin.isEmpty
      if qualifierWords.contains token.text then
        specifiers source n { s with qualifiers := s.qualifiers ++ [token.text] } rest
      else if s.name.isNone && builtinWords.contains token.text then
        specifiers source n { s with builtin := s.builtin ++ [token.text] } rest
      else if nothingNamed && tagKeywords.contains token.text then do
        let (name, rest) ← qualifiedName source n rest
        let tagged := if token.text = "typename".toList then name else token.text ++ ' ' :: name
        specifiers source n { s with name := some tagged } rest
      else if nothingNamed && (startsName token.text || token.text = "::".toList) then do
        let (name, rest) ← qualifiedName source n (token :: rest)
        specifiers source n { s with name := some name } rest
      else (s.type source).map (·, token :: rest)

/-- A name with its scopes, which may start at the global one. -/
def qualifiedName (source : Text) : (fuel : Nat) → Parse Text
  | 0, _ => .error (.unexpectedEnd source)
  | n + 1, tokens =>
    if nextIs "::".toList tokens then
      (nameComponents source n (tokens.drop 1)).map fun r => ("::".toList ++ r.1, r.2)
    else nameComponents source n tokens

def nameComponents (source : Text) : (fuel : Nat) → Parse Text
  | 0, _ => .error (.unexpectedEnd source)
  | n + 1, tokens =>
    match tokens with
    | [] => .error (.unexpectedEnd source)
    | token :: rest =>
      if !startsName token.text then .error (.unexpected token.text token.offset source)
      else do
        let (component, rest) ←
          if nextIs ['<'] rest then do
            let (args, rest) ← templateArguments source n (rest.drop 1)
            pure (token.text ++ CType.angled args, rest)
          else pure (token.text, rest)
        if nextIs "::".toList rest && nextStartsName (rest.drop 1) then
          (nameComponents source n (rest.drop 1)).map fun r =>
            (component ++ "::".toList ++ r.1, r.2)
        else return (component, rest)

/-- Template arguments behind `<`, with the closing `>`. -/
def templateArguments (source : Text) : (fuel : Nat) → Parse (List CType)
  | 0, _ => .error (.unexpectedEnd source)
  | n + 1, tokens =>
    if nextIs ['>'] tokens then .ok ([], tokens.drop 1)
    else argumentList source n tokens

/-- An argument is a declaration where one ends at a comma or `>`, and otherwise raw text. -/
def argumentList (source : Text) : (fuel : Nat) → Parse (List CType)
  | 0, _ => .error (.unexpectedEnd source)
  | n + 1, tokens => do
    let (argument, tokens) ←
      match declaration source n tokens with
      | .ok (type, rest) =>
        if nextIs [','] rest || nextIs ['>'] rest then pure (type, rest)
        else rawArgument source tokens
      | .error _ => rawArgument source tokens
    match tokens with
    | [] => throw (.unexpectedEnd source)
    | token :: rest =>
      if token.text = [','] then
        let (arguments, rest) ← argumentList source n rest
        return (argument :: arguments, rest)
      else if token.text = ['>'] then return ([argument], rest)
      else throw (.unexpected token.text token.offset source)

/-- The constructors of a declarator, outermost first. -/
def declarator (source : Text) : (fuel : Nat) → Parse CType
  | 0, _ => .error (.unexpectedEnd source)
  | n + 1, tokens => do
    let (outer, tokens) := pointers (tokens.length + 1) [] tokens
    let (inner, tokens) ←
      if opensGroup tokens then do
        let (inner, tokens) ← declarator source n (tokens.drop 1)
        pure (inner, ← expect source [')'] tokens)
      else
        match tokens with
        | [] => pure ([], [])
        | token :: rest =>
          if startsName token.text && !builtinWords.contains token.text then pure ([], rest)
          else pure ([], token :: rest)
    let (suffixes, tokens) ← declaratorSuffixes source n tokens
    return (inner ++ suffixes ++ outer, tokens)

/-- Array dimensions and parameter lists behind a declared name. -/
def declaratorSuffixes (source : Text) : (fuel : Nat) → Parse CType
  | 0, _ => .error (.unexpectedEnd source)
  | n + 1, tokens =>
    if nextIs ['['] tokens then do
      let (dimension, tokens) ← rawUntil source [[']']] 0 false (tokens.drop 1)
      let tokens ← expect source [']'] tokens
      let (suffixes, tokens) ← declaratorSuffixes source n tokens
      return (CType.written 'a' dimension ++ suffixes, tokens)
    else if nextIs ['('] tokens then do
      let (types, tokens) ← parameters source n (tokens.drop 1)
      let (qualifiers, tokens) := trailingQualifiers tokens
      let (suffixes, tokens) ← declaratorSuffixes source n tokens
      return (qualifiers ++ CType.written 'f' (Text.commaJoin types) ++ suffixes, tokens)
    else return ([], tokens)

/-- Parameters behind `(`, with the closing `)`; a single `void` declares none. -/
def parameters (source : Text) : (fuel : Nat) → Parse (List CType)
  | 0, _ => .error (.unexpectedEnd source)
  | n + 1, tokens =>
    if nextIs [')'] tokens then .ok ([], tokens.drop 1)
    else do
      let (types, tokens) ← parameterList source n tokens
      return (if types = ["void".toList] then [] else types, tokens)

def parameterList (source : Text) : (fuel : Nat) → Parse (List CType)
  | 0, _ => .error (.unexpectedEnd source)
  | n + 1, tokens => do
    let (type, tokens) ← declaration source n tokens
    let tokens ←
      if nextIs ['='] tokens then
        pure (← rawUntil source [[','], [')']] 0 false (tokens.drop 1)).2
      else pure tokens
    match tokens with
    | [] => throw (.unexpectedEnd source)
    | token :: rest =>
      if token.text = [','] then
        let (types, rest) ← parameterList source n rest
        return (type :: types, rest)
      else if token.text = [')'] then return ([type], rest)
      else throw (.unexpected token.text token.offset source)

end

/-- The type an abstract C declaration names. Between two tokens that are read no more than eight
rules follow one another, which bounds their nesting. -/
def parse (source : Text) : Except DeclarationError CType :=
  match tokens source with
  | [] => .error .empty
  | ts => do
    let (type, rest) ← declaration source (8 * (ts.length + 1)) ts
    match rest with
    | [] => return type
    | _ => unexpectedHere source rest

end BindingTypes.Declaration
