import BindingTypes.Generalize
import BindingTypes.Template.Instantiation

namespace BindingTypes

/-- A partial specialization. Its pattern is written over the arguments, where `$n` stands for the
base of argument `n`. -/
structure PartialDefinition where
  pattern : Text
  node : NodeId
deriving DecidableEq, Repr

/-- The definitions of one template. -/
structure TemplateEntry where
  primary : Option NodeId := none
  /-- In the order of their registration. -/
  partials : List PartialDefinition := []
deriving DecidableEq, Repr

/-- Several partial specializations match, and the first is used. -/
structure Ambiguity where
  instanceOf : Text
  chosen : Text
  chosenLocation : Location
  /-- Where the instance was asked for. -/
  location : Location
deriving DecidableEq, Repr

def Ambiguity.message (a : Ambiguity) : String :=
  "instantiation of template `" ++ String.ofList a.instanceOf ++ "` is ambiguous, using `" ++
    String.ofList a.chosen ++ "` at " ++ String.ofList a.chosenLocation.text

/-- How a definition was found. -/
inductive Match where
  | exact
  | pattern (text : Text)
  | primary
deriving DecidableEq, Repr

/-- The registered templates, and the warnings of the searches among them. -/
structure TemplateEngine where
  templates : Table TemplateEntry := ∅
  /-- Explicit specializations under the full name of their instance. -/
  specializations : Table NodeId := ∅
  warnings : List Ambiguity := []
deriving DecidableEq

namespace TemplateEngine

/-- Types resolved and qualified; values stay as they are. -/
def reduce (g : ScopeGraph) (args : List TemplateArgument) : Except Fault (List TemplateArgument) :=
  args.mapM fun
    | .type t => (g.canonical t).map .type
    | .value v => .ok (.value v)

def entry (e : TemplateEngine) (name : Text) : TemplateEntry := (e.templates.get? name).getD {}

/-- The primary definition of a name; a later one replaces it. -/
def addPrimary (e : TemplateEngine) (name : Text) (node : NodeId) : TemplateEngine :=
  { e with templates := e.templates.insert name { e.entry name with primary := some node } }

/-- An explicit specialization, under its reduced arguments. -/
def addSpecialization (e : TemplateEngine) (g : ScopeGraph) (name : Text)
    (args : List TemplateArgument) (node : NodeId) : Except Fault TemplateEngine := do
  let key := instanceName name (← reduce g args)
  return { e with specializations := e.specializations.insert key node }

def addPartial (e : TemplateEngine) (name : Text) (pattern : List TemplateArgument)
    (node : NodeId) : TemplateEngine :=
  let old := e.entry name
  let added := old.partials ++ [⟨instanceName name pattern, node⟩]
  { e with templates := e.templates.insert name { old with partials := added } }

def isTemplate (e : TemplateEngine) (name : Text) : Bool := e.templates.contains name

/-- The warnings since they were last taken. -/
def takeWarnings (e : TemplateEngine) : List Ambiguity × TemplateEngine :=
  (e.warnings, { e with warnings := [] })

/-- An argument one step more general, with its own base in place of the wildcard: `a(10).int`
becomes `a(ANY).int`. -/
def generalizeArgument (g : ScopeGraph) : TemplateArgument → Except Fault TemplateArgument
  | .value v => .ok (.value v)
  | .type t => do
    let base ← CType.base t
    let general := (← CType.generalize? g.resolver t).getD t
    return .type ((general.replaceWhole CType.wildcard base).replaceWhole "SWIGENUM".toList base)

/-- The name of placeholder `n`. -/
def placeholder (n : Nat) : Text := '$' :: Text.ofNat n

/-- A pattern with the placeholders from `n` on replaced, one after another. -/
def fillFrom : (n : Nat) → List Text → Text → Text
  | _, [], pattern => pattern
  | n, a :: rest, pattern => fillFrom (n + 1) rest (pattern.replaceWhole (placeholder n) a)

/-- The patterns that match one of two names once their placeholders are replaced. -/
def matching (partials : List PartialDefinition) (args : List TemplateArgument)
    (names : List Text) : Except Fault (List PartialDefinition) := do
  if partials.isEmpty then return []
  let fillers ← args.mapM (·.placeholderText)
  return partials.filter fun p => names.contains (fillFrom 1 fillers p.pattern)

/-- The definition is that of a template. -/
def checkTemplate (t : DeclTree) (name : Text) (node : NodeId) :
    Except Fault (Except TemplateError NodeId) := do
  let kind := (← t.node node).kind
  return if kind.isTemplate then .ok node else .error (.notATemplate name kind)

/-- The definition that `name` with reduced arguments instantiates. -/
def locateReduced (e : TemplateEngine) (t : DeclTree) (g : ScopeGraph) (name : Text)
    (args : List TemplateArgument) (location : Location) :
    Except Fault (Except TemplateError (NodeId × Match) × TemplateEngine) := do
  let full := instanceName name args
  match e.specializations.get? full, e.templates.get? name with
  | some node, _ => return ((← checkTemplate t name node).map (·, .exact), e)
  | none, none => return (.error (.undefined name), e)
  | none, some entry =>
    let general := instanceName name (← args.mapM (generalizeArgument g))
    match ← matching entry.partials args [full, general] with
    | [] =>
      match entry.primary with
      | some node => return ((← checkTemplate t name node).map (·, .primary), e)
      | none => return (.error (.undefined name), e)
    | first :: others =>
      match ← checkTemplate t name first.node with
      | .error err => return (.error err, e)
      | .ok node =>
        let found : NodeId × Match := (node, .pattern first.pattern)
        if others.isEmpty then return (.ok found, e)
        else
          let warning : Ambiguity := ⟨← CType.nameSpelling full, ← CType.nameSpelling first.pattern,
            (← t.node node).location, location⟩
          return (.ok found, { e with warnings := e.warnings ++ [warning] })

/-- The definition that `name` with `args` instantiates. An explicit specialization wins; then the
first partial specialization whose pattern gives the name of the instance, as it is or one step
more general; then the primary definition. -/
def locate (e : TemplateEngine) (t : DeclTree) (g : ScopeGraph) (name : Text)
    (args : List TemplateArgument) (location : Location) :
    Except Fault (Except TemplateError (NodeId × Match) × TemplateEngine) := do
  e.locateReduced t g name (← reduce g args) location

/-- The argument behind a placeholder: what follows the constructors of the pattern, or else the
base of the type. -/
def bindOne (pattern : CType) (holder : Text) (arg : TemplateArgument) :
    Except Fault TemplateArgument :=
  match arg with
  | .value v => .ok (.value v)
  | .type t =>
    let rest :=
      if pattern.endsWith holder then
        (Text.after? t (pattern.take (pattern.length - holder.length))).getD []
      else []
    if rest = [] then (CType.base t).map .type else .ok (.type rest)

/-- Arguments for the parameters from `n` on, up to the first without a placeholder. -/
def bindFrom (pairs : List (CType × TemplateArgument)) :
    (n : Nat) → (parameters : Nat) → Except Fault (List TemplateArgument)
  | _, 0 => .ok []
  | n, count + 1 =>
    match pairs.find? fun p => p.1.hasWhole (placeholder n) with
    | none => .ok []
    | some (pattern, arg) => do
      let bound ← bindOne pattern (placeholder n) arg
      return bound :: (← bindFrom pairs (n + 1) count)

/-- Arguments for the parameters of a partial specialization. -/
def bindPattern (pattern : Text) (parameters : Nat) (args : List TemplateArgument) :
    Except Fault (List TemplateArgument) := do
  bindFrom ((← CType.templateArguments pattern).zip args) 1 parameters

/-- A new instance of `name` with `args`, without a parent. The definition is copied and only the
copy is changed; one that cannot be expanded is marked as failed. -/
def instantiate (e : TemplateEngine) (t : DeclTree) (g : ScopeGraph) (name : Text)
    (args : List TemplateArgument) (shownName : Text) (location : Location) :
    Except Fault (Except TemplateError NodeId × TemplateEngine × DeclTree) := do
  match ← e.locate t g name args location with
  | (.error err, e) => return (.error err, e, t)
  | (.ok (node, found), e) =>
    let reduced ← reduce g args
    let (copy, t) ← t.deepCopy node
    let arguments ← match found with
      | .pattern pattern =>
        bindPattern pattern (← t.node copy).templateParameters.length reduced
      | _ => pure reduced
    let (expanded, t) ← Instantiation.expandInPlace ⟨shownName, arguments, reduced⟩ t g copy
    match expanded with
    | .error err => return (.error err, e, t.modifyNode copy fun n => { n with failed := true })
    | .ok () =>
      return (.ok copy, e, t.modifyNode copy fun n => { n with shownName := some shownName })

end TemplateEngine

end BindingTypes
