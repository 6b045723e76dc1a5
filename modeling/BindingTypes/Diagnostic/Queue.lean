import BindingTypes.Diagnostic.Basic

namespace BindingTypes

/-- What a queue accepts. -/
structure QueueConfig where
  /-- The number of errors after which nothing more is accepted; 0 sets no limit. -/
  errorLimit : Nat := 10
  /-- An error like the one before it is dropped. -/
  deduplicate : Bool := true
deriving DecidableEq, Repr

/-- No limit and no deduplication. -/
def QueueConfig.unlimited : QueueConfig := ⟨0, false⟩

/-- Diagnostics that wait to be shown, in the order of their report. -/
structure DiagnosticQueue where
  config : QueueConfig := {}
  diagnostics : List Diagnostic := []
  errorCount : Nat := 0
  /-- The key of the last accepted error. -/
  lastError : Option (Location × String) := none
deriving DecidableEq, Repr

namespace DiagnosticQueue

def new (config : QueueConfig) : DiagnosticQueue := { config }

/-- The number of leading characters in which the messages of like errors agree. -/
def comparedLength : Nat := 30

/-- Errors at one place whose messages begin alike count as the same. -/
def errorKey (d : Diagnostic) : Location × String :=
  (d.location, String.ofList (d.message.toList.take comparedLength))

def limitReached (q : DiagnosticQueue) : Bool :=
  0 < q.config.errorLimit && q.config.errorLimit ≤ q.errorCount

def isRepeated (q : DiagnosticQueue) (d : Diagnostic) : Bool :=
  d.isError && q.config.deduplicate && q.lastError = some (errorKey d)

/-- Accepts a diagnostic and tells whether it was kept. -/
def add (q : DiagnosticQueue) (d : Diagnostic) : Bool × DiagnosticQueue :=
  if q.limitReached || q.isRepeated d then (false, q)
  else if d.isError then
    (true, { q with
      diagnostics := q.diagnostics ++ [d]
      errorCount := q.errorCount + 1
      lastError := some (errorKey d) })
  else (true, { q with diagnostics := q.diagnostics ++ [d] })

/-- Reports an error. -/
def emit (q : DiagnosticQueue) (d : Diagnostic) : DiagnosticQueue := (q.add d).2

def hasErrors (q : DiagnosticQueue) : Bool := 0 < q.errorCount

/-- The diagnostics by place, those at one place in the order of their report. -/
def sorted (q : DiagnosticQueue) : List Diagnostic :=
  q.diagnostics.mergeSort fun a b => (a.location.order b.location).isLE

/-- Takes every diagnostic. -/
def flush (q : DiagnosticQueue) : List Diagnostic × DiagnosticQueue := (q.sorted, new q.config)

end DiagnosticQueue

/-- What a step says that failed after it had reported why. -/
def errorsReported : String := "error(s) emitted"

end BindingTypes
