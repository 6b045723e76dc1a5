import BindingTypes.DeclTree.Basic
import BindingTypes.Template.Argument

namespace BindingTypes

/-- One event at the level of declarations. Names are as they are written at that point. -/
inductive Directive where
  | typedef (type : CType) (name : Text)
  | declareClass (name : Text) (bases : List Text)
  | enterScope (name : Option Text)
  | leaveScope
  | usingNamespace (name : Text)
  | usingDeclaration (qualified : Text)
  | namespaceAlias (name target : Text)
  | subtype (derived base : Text) (cast : Option Text)
  | remember (type : CType) (clientData : Option Text)
  | template (name : Text) (node : NodeId)
  | specialization (name : Text) (arguments : List TemplateArgument) (node : NodeId)
  | partialSpecialization (name : Text) (pattern : List TemplateArgument) (node : NodeId)
  | instantiate (name : Text) (arguments : List TemplateArgument) (shownName : Text)
deriving DecidableEq, Repr

/-- A short name. -/
def Directive.kind : Directive → String
  | typedef .. => "typedef"
  | declareClass .. => "class"
  | enterScope _ => "enter scope"
  | leaveScope => "leave scope"
  | usingNamespace _ => "using namespace"
  | usingDeclaration _ => "using"
  | namespaceAlias .. => "namespace alias"
  | subtype .. => "inherit"
  | remember .. => "remember"
  | template .. => "template"
  | specialization .. => "specialization"
  | partialSpecialization .. => "partial specialization"
  | instantiate .. => "instantiate"

end BindingTypes
