import BindingTypes.Diagnostic.Queue
import BindingTypes.Diagnostic.Report
import BindingTypes.Registry.TypeTable
import BindingTypes.Session.Directive

namespace BindingTypes

structure SessionConfig where
  diagnostics : QueueConfig := {}
  templateDebug : Bool := false
  /-- The beginning of runtime descriptor names. -/
  descriptor : Text := Environment.descriptorHead
deriving DecidableEq, Repr

/-- Defaults, without error limit and deduplication. -/
def SessionConfig.unlimited : SessionConfig := { diagnostics := .unlimited }

/-- The state of one compilation. -/
structure Session where
  config : SessionConfig
  environment : Environment
  engine : TemplateEngine
  tree : DeclTree
  queue : DiagnosticQueue
  /-- The place of the last directive. -/
  lastLocation : Location
deriving DecidableEq

/-- What a finished session leaves. -/
structure SessionOutput where
  tree : DeclTree
  table : TypeTable
  diagnostics : List Diagnostic
  descriptor : Text
deriving DecidableEq

namespace Session

/-- The declaration under which the others stand. -/
def root : NodeId := 0

def new (config : SessionConfig) (budget : Nat) : Session where
  config := config
  environment := .new budget
  engine := {}
  tree := (({} : DeclTree).add { kind := ⟨.namespaceDecl, false⟩ }).2
  queue := .new config.diagnostics
  lastLocation := .synthetic

/-- Adds a declaration under another. -/
def declareIn (s : Session) (parent : NodeId) (n : Node) : Except Fault (NodeId × Session) := do
  let (id, tree) ← s.tree.addChild parent n
  return (id, { s with tree })

def declare (s : Session) (n : Node) : Except Fault (NodeId × Session) := s.declareIn root n

def report (s : Session) (d : Diagnostic) : Session := { s with queue := s.queue.emit d }

def withGraph (s : Session) (g : ScopeGraph) : Session :=
  { s with environment := { s.environment with graph := g } }

/-- How a directive ended: well, perhaps with a new node, or with a reported error. -/
abbrev Outcome := Except Unit (Option NodeId)

/-- A change of the scopes that may be refused. -/
def settle (s : Session) (location : Location) :
    Except TypedefError ScopeGraph → Outcome × Session
  | .ok g => (.ok none, s.withGraph g)
  | .error e => (.error (), s.report (e.diagnostic location))

/-- Declares a class: its name, a scope for its members that searches every known base, and its
place under the bases. -/
def declareClass (s : Session) (name : Text) (bases : List Text) (location : Location) :
    Except Fault (Outcome × Session) := do
  match s.environment.graph.defineClass name with
  | .error e => return s.settle location (.error e)
  | .ok g =>
    let qualified ← g.qualify name
    let baseScopes ← bases.filterMapM g.findScope
    let qualifiedBases ← bases.mapM g.qualify
    let inside := baseScopes.foldl ScopeGraph.inheritFrom (g.enter (some name)).2
    let environment ← qualifiedBases.foldlM (fun env base => env.addSubtype qualified base none)
      { s.environment with graph := inside.leave.2 }
    return (.ok none, { s with environment })

/-- The warnings of the template engine go to the queue. -/
def drainWarnings (s : Session) : Session :=
  let (warnings, engine) := s.engine.takeWarnings
  { s with engine, queue := warnings.foldl (fun q a => (q.add a.diagnostic).2) s.queue }

/-- Instantiates a template under the root. An instance of a class is declared as one. -/
def instantiate (s : Session) (name : Text) (args : List TemplateArgument) (shownName : Text)
    (location : Location) : Except Fault (Outcome × Session) := do
  let (result, engine, tree) ←
    s.engine.instantiate s.tree s.environment.graph name args shownName location
  let s := drainWarnings { s with engine, tree }
  match result with
  | .error e => return (.error (), s.report (e.diagnostic location))
  | .ok id =>
    let made ← s.tree.node id
    let (declared, s) ←
      if made.kind.kind = .classDecl then s.declareClass (made.name.getD []) made.bases location
      else pure (.ok none, s)
    match declared with
    | .error () =>
      return (.error (), { s with tree := s.tree.modifyNode id fun n => { n with failed := true } })
    | .ok _ => return (.ok (some id), { s with tree := ← s.tree.attach root id })

/-- A step that needs the node `id`. -/
def withNode (s : Session) (id : NodeId) (location : Location)
    (step : Except Fault TemplateEngine) : Except Fault (Outcome × Session) :=
  if id < s.tree.size then step.map fun engine => (.ok none, { s with engine })
  else .ok (.error (), s.report (unknownNode id location))

/-- Applies one directive. On an error the diagnostic is queued already. Directives that name an
unknown namespace, or leave the global scope, change nothing. -/
def apply (s : Session) (d : Directive) (location : Location) :
    Except Fault (Outcome × Session) :=
  let s := { s with lastLocation := location }
  let g := s.environment.graph
  match d with
  | .typedef type name => (g.define type name).map (s.settle location)
  | .declareClass name bases => s.declareClass name bases location
  | .enterScope name => .ok (.ok none, s.withGraph (g.enter name).2)
  | .leaveScope => .ok (.ok none, s.withGraph g.leave.2)
  | .usingNamespace name =>
    (g.findScope name).map fun found => (.ok none, s.withGraph ((found.map g.useNamespace).getD g))
  | .usingDeclaration qualified => (g.declareUsing qualified).map (s.settle location)
  | .namespaceAlias name target =>
    (g.findScope target).map fun found =>
      (.ok none, s.withGraph ((found.map (g.aliasName name)).getD g))
  | .subtype derived base cast =>
    (s.environment.addSubtype derived base cast).map fun environment =>
      (.ok none, { s with environment })
  | .remember type clientData =>
    (s.environment.remember type clientData).map fun
      | (.ok (), environment) => (.ok none, { s with environment })
      | (.error e, environment) =>
        (.error (), ({ s with environment } : Session).report (e.diagnostic location))
  | .template name node => s.withNode node location (.ok (s.engine.addPrimary name node))
  | .specialization name args node =>
    s.withNode node location (s.engine.addSpecialization g name args node)
  | .partialSpecialization name pattern node =>
    s.withNode node location (.ok (s.engine.addPartial name pattern node))
  | .instantiate name args shownName => s.instantiate name args shownName location

/-- Descriptor markers in a text become descriptor names, and their types are remembered. -/
def replaceDescriptors (s : Session) (text : Text) (location : Location) :
    Except Fault (Except Unit Text × Session) :=
  let s := { s with lastLocation := location }
  (s.environment.replaceDescriptors text s.config.descriptor).map fun
    | (.ok done, environment) => (.ok done, { s with environment })
    | (.error e, environment) =>
      (.error (), ({ s with environment } : Session).report (e.diagnostic location))

/-- The type table, and every diagnostic by its place; where the error limit was met, a last one
says so. -/
def finish (s : Session) : Except Fault SessionOutput := do
  let (table, _) ← s.environment.typeTable
  let last :=
    if s.queue.limitReached then
      [Diagnostic.tooManyErrors s.config.diagnostics.errorLimit s.lastLocation]
    else []
  return ⟨s.tree, table, s.queue.flush.1 ++ last, s.config.descriptor⟩

end Session

def SessionOutput.hasErrors (o : SessionOutput) : Bool := o.diagnostics.any (·.isError)

def SessionOutput.renderForward (o : SessionOutput) : Text := o.table.renderForward o.descriptor

def SessionOutput.renderTable (o : SessionOutput) : Text := o.table.render

end BindingTypes
