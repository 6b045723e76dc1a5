import BindingTypes.CType.Element
import BindingTypes.Location

namespace BindingTypes

/-- The kinds of declaration that are told apart. -/
inductive DeclKind where
  | classDecl
  | constructor
  | destructor
  /-- A function, a variable or a member. -/
  | declaration
  | usingDecl
  | namespaceDecl
  | enumeration
  | enumItem
  | extension
  /-- Code that is copied as it stands. -/
  | insertion
deriving DecidableEq, Repr

def DeclKind.text : DeclKind → String
  | classDecl => "class"
  | constructor => "constructor"
  | destructor => "destructor"
  | declaration => "cdecl"
  | usingDecl => "using"
  | namespaceDecl => "namespace"
  | enumeration => "enum"
  | enumItem => "enumitem"
  | extension => "extend"
  | insertion => "insert"

def DeclKind.all : List DeclKind :=
  [classDecl, constructor, destructor, declaration, usingDecl, namespaceDecl, enumeration, enumItem,
    extension, insertion]

/-- A declaration, or a template of one. -/
structure NodeKind where
  kind : DeclKind
  isTemplate : Bool := false
deriving DecidableEq, Repr

def NodeKind.text (k : NodeKind) : String :=
  if k.isTemplate then "template " ++ k.kind.text else k.kind.text

/-- A function or template parameter, or a thrown type. -/
structure Parameter where
  type : CType
  name : Option Text := none
  /-- The text of the default value. -/
  value : Option Text := none
deriving DecidableEq, Repr

/-- What a declaration says. -/
structure Node where
  kind : NodeKind
  name : Option Text := none
  /-- The name shown to the target language. -/
  shownName : Option Text := none
  type : Option CType := none
  /-- The constructors applied to the type. -/
  declarator : Option CType := none
  value : Option Text := none
  code : Option Text := none
  parameters : List Parameter := []
  throws : List Parameter := []
  pattern : List Parameter := []
  bases : List Text := []
  templateParameters : List Parameter := []
  /-- The name of the declaration embeds a type. -/
  isConversion : Bool := false
  /-- The name a using-declaration brings in. -/
  usedName : Option Text := none
  /-- The declaration could not be instantiated. -/
  failed : Bool := false
  location : Location := .synthetic
deriving DecidableEq, Repr

end BindingTypes
