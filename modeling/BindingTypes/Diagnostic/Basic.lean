import BindingTypes.Diagnostic.Code
import BindingTypes.Location

namespace BindingTypes

inductive Severity where
  | error | warning | note | help
deriving DecidableEq, Repr

def Severity.text : Severity → String
  | error => "error"
  | warning => "warning"
  | note => "note"
  | help => "help"

/-- A place with what is said about it. -/
structure Label where
  location : Location
  message : String
  /-- The diagnostic is about this place. -/
  isPrimary : Bool := true
deriving DecidableEq, Repr

/-- A reported problem. -/
structure Diagnostic where
  code : DiagnosticCode
  severity : Severity := .error
  message : String := ""
  labels : List Label := []
  notes : List String := []
  suggestions : List String := []
deriving DecidableEq, Repr

namespace Diagnostic

def isError (d : Diagnostic) : Bool := d.severity = .error

/-- The place of the first primary label. -/
def primaryLocation? (d : Diagnostic) : Option Location :=
  (d.labels.find? (·.isPrimary)).map (·.location)

/-- The place a diagnostic is sorted under. -/
def location (d : Diagnostic) : Location := d.primaryLocation?.getD .synthetic

def labelText (l : Label) : String :=
  let marker := if l.isPrimary then "-->" else "   "
  "\n  " ++ marker ++ " " ++ String.ofList l.location.text ++ ": " ++ l.message

/-- The form that is shown: one line, then a line for each label, note and suggestion. -/
def text (d : Diagnostic) : String :=
  d.severity.text ++ " [" ++ d.code.text ++ "]: " ++ d.message ++
    String.join (d.labels.map labelText) ++
    String.join (d.notes.map fun n => "\n  = note: " ++ n) ++
    String.join (d.suggestions.map fun s => "\n  = help: " ++ s)

/-- The last diagnostic of a session that met its error limit. -/
def tooManyErrors (limit : Nat) (location : Location) : Diagnostic :=
  { code := .tooManyErrors
    message := "aborting due to " ++ toString limit ++ " previous errors"
    labels := [{ location, message := "error limit reached here" }]
    notes := ["raise the error limit in the session configuration"] }

end Diagnostic

end BindingTypes
