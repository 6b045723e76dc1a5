import BindingTypes.Spelling

namespace BindingTypes

/-- An argument of a template: a type, or a value such as a number. -/
inductive TemplateArgument where
  | type (t : CType)
  | value (v : Text)
deriving DecidableEq, Repr

namespace TemplateArgument

/-- The text inside template brackets. -/
def text : TemplateArgument → Text
  | type t => t
  | value v => v

/-- The C spelling. -/
def spelling : TemplateArgument → Except Fault Text
  | type t => CType.spelling t
  | value v => CType.nameSpelling v

/-- What a numbered placeholder of a pattern stands for: the base of a type, or the value. -/
def placeholderText : TemplateArgument → Except Fault Text
  | type t => CType.base t
  | value v => .ok v

end TemplateArgument

/-- Arguments in template brackets. -/
def argumentBlock (args : List TemplateArgument) : Text := CType.angled (args.map (·.text))

/-- The name of a template with arguments. -/
def instanceName (name : Text) (args : List TemplateArgument) : Text := name ++ argumentBlock args

end BindingTypes
