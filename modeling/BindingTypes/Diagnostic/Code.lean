namespace BindingTypes

/-- The kinds of problem that are reported. -/
inductive DiagnosticCode where
  /-- A typedef name is defined in the scope already. -/
  | redefinition
  /-- A using-declaration of a name without a scope. -/
  | unqualifiedUsing
  /-- One type remembered with different client data. -/
  | inconsistentClientData
  /-- A template type whose arguments are not encoded. -/
  | malformedTemplate
  | undefinedTemplate
  | notATemplate
  /-- The wrong number of template arguments. -/
  | arityMismatch
  /-- A descriptor marker that names no type. -/
  | badDescriptor
  | unknownNode
  | tooManyErrors
  /-- Several partial specializations match. -/
  | ambiguousSpecialization
deriving DecidableEq, Repr

namespace DiagnosticCode

def all : List DiagnosticCode :=
  [redefinition, unqualifiedUsing, inconsistentClientData, malformedTemplate, undefinedTemplate,
    notATemplate, arityMismatch, badDescriptor, unknownNode, tooManyErrors, ambiguousSpecialization]

def text : DiagnosticCode → String
  | redefinition => "E1001"
  | unqualifiedUsing => "E1002"
  | inconsistentClientData => "E2001"
  | malformedTemplate => "E2002"
  | undefinedTemplate => "E3001"
  | notATemplate => "E3002"
  | arityMismatch => "E3003"
  | badDescriptor => "E4001"
  | unknownNode => "E9001"
  | tooManyErrors => "E9002"
  | ambiguousSpecialization => "W3001"

def isTypedefError (c : DiagnosticCode) : Bool := [redefinition, unqualifiedUsing].contains c

def isRememberError (c : DiagnosticCode) : Bool :=
  [inconsistentClientData, malformedTemplate].contains c

def isTemplateError (c : DiagnosticCode) : Bool :=
  [undefinedTemplate, notATemplate, arityMismatch].contains c

def isDescriptorError (c : DiagnosticCode) : Bool := c = badDescriptor

def isInternalError (c : DiagnosticCode) : Bool := [unknownNode, tooManyErrors].contains c

def isWarning (c : DiagnosticCode) : Bool := c = ambiguousSpecialization

/-- The code a text names, in upper or lower case. No letter outside ASCII has an upper case that
occurs in a code. -/
def ofText? (t : String) : Option DiagnosticCode := all.find? fun c => c.text = t.toUpper

end DiagnosticCode

end BindingTypes
