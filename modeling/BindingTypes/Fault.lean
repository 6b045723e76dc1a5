import BindingTypes.Text.Basic

namespace BindingTypes

/-- What is wrong with the text of a type. -/
inductive Defect where
  | unopened
  | unclosed
  | noArgument
  | noArguments
  | templateNotClosed
  | templateUnterminated
  | notPointer
  | notReference
  | notArray
  | notFunction
deriving DecidableEq, Repr

/-- Why a computation has no answer. -/
inductive Fault where
  | malformed (text : Text) (defect : Defect)
  | missingNode (id : Nat)
  | missingScope (id : Nat)
  /-- More steps were asked for than the budget allows. -/
  | exhausted
deriving DecidableEq, Repr

def Defect.message : Defect → String
  | unopened => "unbalanced `)`"
  | unclosed => "unbalanced `(`"
  | noArgument => "element has no parenthesised argument"
  | noArguments => "no argument list"
  | templateNotClosed => "template arguments not closed by `)>`"
  | templateUnterminated => "unterminated template arguments"
  | notPointer => "del_pointer applied to a non-pointer"
  | notReference => "del_reference applied to a non-reference"
  | notArray => "del_array applied to a non-array"
  | notFunction => "pop_function applied to a non-function"

/-- Ends any computation that can fail. -/
def Fault.raise {m : Type → Type} [MonadLiftT (Except Fault) m] {α : Type} (f : Fault) : m α :=
  liftM (Except.error f : Except Fault α)

def Fault.message : Fault → Option String
  | malformed text defect =>
    some ("malformed type string `" ++ String.ofList text ++ "`: " ++ defect.message)
  | _ => none

end BindingTypes
