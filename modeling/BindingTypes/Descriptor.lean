import BindingTypes.Declaration.Parser
import BindingTypes.Registry.Basic
import BindingTypes.Text.Blank

namespace BindingTypes

/-- Why a descriptor marker cannot be replaced. -/
inductive DescriptorError where
  | badType (text : Text) (source : Declaration.DeclarationError)
  | unterminated
  | remember (e : RememberError)
deriving DecidableEq, Repr

def DescriptorError.message : DescriptorError → String
  | badType text source =>
    "bad $descriptor() macro `" ++ String.ofList text ++ "`: " ++ source.message
  | unterminated => "unterminated $descriptor() macro"
  | remember e => e.message

namespace Environment

/-- The beginning of every runtime descriptor name. -/
def descriptorHead : Text := "SWIGTYPE".toList

def descriptorMarker : Text := "$descriptor(".toList

/-- The runtime name of the type in a marker, which is remembered. -/
def describe (env : Environment) (argument : Text) :
    Except Fault (Except DescriptorError Text × Environment) := do
  match Declaration.parse argument.trim with
  | .error e => return (.error (.badType argument e), env)
  | .ok t =>
    let name ← CType.runtimeName env.graph.resolver t
    match ← env.remember t none with
    | (.ok _, env) => return (.ok name, env)
    | (.error e, env) => return (.error (.remember e), env)

/-- Every marker in a text becomes the descriptor name of its type. The first marker that cannot be
handled ends the work; types remembered before it stay remembered. -/
def replaceDescriptors (env : Environment) (text descriptor : Text) :
    Except Fault (Except DescriptorError Text × Environment) :=
  match _h : text.cut? descriptorMarker with
  | none => .ok (.ok text, env)
  | some (before, opened) =>
    match _hc : CType.closeGroup 0 opened with
    | none => .ok (.error .unterminated, env)
    | some (argument, rest) => do
      match ← env.describe argument with
      | (.error e, env) => return (.error e, env)
      | (.ok name, env) =>
        let (result, env) ← env.replaceDescriptors rest descriptor
        return (result.map fun done => before ++ descriptor ++ name ++ done, env)
termination_by text.length
decreasing_by
  rw [Text.eq_of_cut? _h, CType.append_of_closeGroup _hc]
  simp
  omega

end Environment

end BindingTypes
