import BindingTypes.Descriptor
import BindingTypes.Diagnostic.Basic
import BindingTypes.Template.Engine

namespace BindingTypes

def reportAt (code : DiagnosticCode) (message : String) (location : Location) (label : String) :
    Diagnostic :=
  { code, message, labels := [⟨location, label, true⟩] }

def TypedefError.diagnostic (e : TypedefError) (location : Location) : Diagnostic :=
  match e with
  | alreadyDefined name _ =>
    reportAt .redefinition e.message location ("`" ++ String.ofList name ++ "` redefined here")
  | notQualified _ =>
    reportAt .unqualifiedUsing e.message location "expected a name of the form `Scope::name`"

def RememberError.diagnostic (e : RememberError) (location : Location) : Diagnostic :=
  match e with
  | inconsistentClientData _ _ kept =>
    { reportAt .inconsistentClientData e.message location "type remembered here" with
      notes := ["keeping the first client data `" ++ String.ofList kept ++ "`"] }
  | malformedTemplate _ => reportAt .malformedTemplate e.message location "type remembered here"

def DescriptorError.diagnostic (e : DescriptorError) (location : Location) : Diagnostic :=
  match e with
  | remember e => e.diagnostic location
  | _ => reportAt .badDescriptor e.message location "in this code block"

def TemplateError.code : TemplateError → DiagnosticCode
  | undefined _ => .undefinedTemplate
  | notATemplate .. => .notATemplate
  | arityMismatch .. => .arityMismatch

def TemplateError.diagnostic (e : TemplateError) (location : Location) : Diagnostic :=
  reportAt e.code e.message location "instantiated here"

def Ambiguity.diagnostic (a : Ambiguity) : Diagnostic :=
  { code := .ambiguousSpecialization
    severity := .warning
    message := a.message
    labels := [⟨a.location, "ambiguous instantiation", true⟩,
      ⟨a.chosenLocation, "this specialization is used", false⟩] }

/-- A directive names a declaration that does not exist. -/
def unknownNode (id : NodeId) (location : Location) : Diagnostic :=
  reportAt .unknownNode ("unknown declaration node " ++ toString id) location "referenced here"

end BindingTypes
