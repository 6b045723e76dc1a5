import BindingTypes.CType.Rename
import BindingTypes.DeclTree.Basic
import BindingTypes.Scope.Qualification
import BindingTypes.Template.Argument

namespace BindingTypes

/-- Why a template cannot be instantiated. -/
inductive TemplateError where
  | undefined (name : Text)
  | notATemplate (name : Text) (kind : NodeKind)
  | arityMismatch (name : Text) (expected given : Nat)
deriving DecidableEq, Repr

def TemplateError.message : TemplateError → String
  | undefined name => "template `" ++ String.ofList name ++ "` undefined"
  | notATemplate name kind =>
    "`" ++ String.ofList name ++ "` is not defined as a template (" ++ kind.text ++ ")"
  | arityMismatch name expected given =>
    "template `" ++ String.ofList name ++ "` expects " ++ toString expected ++ " argument(s), " ++
      toString given ++ " given"

/-- What a template is expanded into. -/
structure Instantiation where
  /-- The name shown to the target language. -/
  shownName : Text
  /-- The arguments of the definition's own parameters. -/
  arguments : List TemplateArgument
  /-- The arguments as they were asked for; they form the name of the instance. -/
  instanceArguments : List TemplateArgument

/-- A place in a node that holds a type. -/
inductive TypeSlot where
  | type | declarator | parameter (i : Nat) | throws (i : Nat) | pattern (i : Nat) | base (i : Nat)
deriving DecidableEq, Repr

/-- A place in a node that holds other text. -/
inductive TextSlot where
  | name | shownName | value | code | usedName
  | parameterValue (i : Nat) | throwsValue (i : Nat) | patternValue (i : Nat)
deriving DecidableEq, Repr

/-- The type in a slot of a node. -/
def Node.typeAt (n : Node) : TypeSlot → Option CType
  | .type => n.type
  | .declarator => n.declarator
  | .parameter i => n.parameters[i]?.map (·.type)
  | .throws i => n.throws[i]?.map (·.type)
  | .pattern i => n.pattern[i]?.map (·.type)
  | .base i => n.bases[i]?

def Node.setType (n : Node) (slot : TypeSlot) (t : CType) : Node :=
  match slot with
  | .type => { n with type := some t }
  | .declarator => { n with declarator := some t }
  | .parameter i => { n with parameters := n.parameters.modify i ({ · with type := t }) }
  | .throws i => { n with throws := n.throws.modify i ({ · with type := t }) }
  | .pattern i => { n with pattern := n.pattern.modify i ({ · with type := t }) }
  | .base i => { n with bases := n.bases.set i t }

/-- Another text in a slot of a node, where it holds one. -/
def Node.mapText (n : Node) (slot : TextSlot) (f : Text → Text) : Node :=
  match slot with
  | .name => { n with name := n.name.map f }
  | .shownName => { n with shownName := n.shownName.map f }
  | .value => { n with value := n.value.map f }
  | .code => { n with code := n.code.map f }
  | .usedName => { n with usedName := n.usedName.map f }
  | .parameterValue i =>
    { n with parameters := n.parameters.modify i fun p => { p with value := p.value.map f } }
  | .throwsValue i =>
    { n with throws := n.throws.modify i fun p => { p with value := p.value.map f } }
  | .patternValue i =>
    { n with pattern := n.pattern.modify i fun p => { p with value := p.value.map f } }

/-- Places of one declaration that may name a template parameter. Each list is treated in its own
way: types are renamed, values get the argument as it is encoded, code gets its C spelling. -/
structure Slots where
  types : List (NodeId × TypeSlot) := []
  values : List (NodeId × TextSlot) := []
  code : List (NodeId × TextSlot) := []

def Slots.append (a b : Slots) : Slots :=
  ⟨a.types ++ b.types, a.values ++ b.values, a.code ++ b.code⟩

/-- A declaration that an expansion reaches. -/
structure Visit where
  id : NodeId
  kind : DeclKind
  isTemplate : Bool
  /-- The first template on the way down becomes a plain declaration. -/
  unwraps : Bool
deriving DecidableEq, Repr

/-- The declaration is expanded together with its children. -/
def DeclKind.isContainer : DeclKind → Bool
  | .classDecl | .namespaceDecl | .enumeration | .enumItem | .extension | .insertion => true
  | _ => false

namespace DeclTree

/-- The declarations an expansion of the listed ones reaches, in pre-order; `unwrapped` tells
whether a template stands above a declaration. Failed declarations are passed over. -/
def visitsFrom (t : DeclTree) : (fuel : Nat) → List (NodeId × Bool) → Except Fault (List Visit)
  | _, [] => .ok []
  | 0, _ :: _ => .error .exhausted
  | n + 1, (id, unwrapped) :: ids => do
    let linked ← t.get id
    if linked.node.failed then t.visitsFrom n ids
    else
      let ⟨kind, isTemplate⟩ := linked.node.kind
      let below := if kind.isContainer then linked.children.map (·, isTemplate || unwrapped) else []
      return ⟨id, kind, isTemplate, isTemplate && !unwrapped⟩ :: (← t.visitsFrom n (below ++ ids))

def visits (t : DeclTree) (id : NodeId) : Except Fault (List Visit) :=
  t.visitsFrom (t.size + 1) [(id, false)]

end DeclTree

namespace Instantiation

/-- The names that an expansion puts in place of one another. -/
structure Names where
  /-- The name of the template, without arguments. -/
  template : Text
  shown : Text
  /-- The arguments of the instance, in brackets. -/
  block : Text

def Names.instance (names : Names) : Text := names.template ++ names.block

/-- A constructor's name under the template's own name. -/
def constructorName (names : Names) (name : Text) : Except Fault Text := do
  let stem ← CType.templateStem name
  if stem ≠ [] && names.template.has stem then return name.replaceWhole stem names.template
  else return name

/-- The name of a constructor or destructor as a member of the instance. A name that brings its own
arguments is left to the substitution of parameters. -/
def memberName (names : Names) (name : Text) : Text :=
  if name.has ['<'] then name else name ++ names.block

def nameSlots (id : NodeId) (slot : TextSlot) (name : Option Text) : List (NodeId × TextSlot) :=
  if (name.map (·.has ['<'])).getD false then [(id, slot)] else []

/-- `Pair(...)` becomes `Pair<(int,double)>(...)`, shown under the name of the instance. -/
def renameConstructor (names : Names) (id : NodeId) (n : Node) : Except Fault (Node × Slots) := do
  let name ← n.name.mapM (constructorName names)
  let shown ← n.shownName.mapM (constructorName names)
  return ({ n with
    name := name.map (memberName names)
    shownName := shown.map fun s =>
      if s.has ['<'] then names.shown else s.replaceAll names.template names.shown },
    { values := nameSlots id .name name })

/-- `~Pair` becomes `~Pair<(int,double)>`, shown under the name of the instance. -/
def renameDestructor (names : Names) (id : NodeId) (n : Node) : Node × Slots :=
  ({ n with
    name := n.name.map (memberName names)
    shownName := n.shownName.map fun s =>
      if s.has ['<'] then s else s.replaceAll names.template names.shown },
    { values := nameSlots id .name n.name ++ nameSlots id .shownName n.shownName })

/-- The slots of a list of parameters. -/
def parameterSlots (id : NodeId) (ps : List Parameter) (type : Nat → TypeSlot)
    (value : Nat → TextSlot) : Slots :=
  { types := (List.range ps.length).map fun i => (id, type i)
    code := (List.range ps.length).map fun i => (id, value i) }

def parametersOf (id : NodeId) (n : Node) : Slots :=
  parameterSlots id n.parameters .parameter .parameterValue

def throwsOf (id : NodeId) (n : Node) : Slots := parameterSlots id n.throws .throws .throwsValue

def patternOf (id : NodeId) (n : Node) : Slots := parameterSlots id n.pattern .pattern .patternValue

/-- The slots of a declaration, by its kind. -/
def slotsOf (id : NodeId) (kind : DeclKind) (n : Node) : Slots :=
  match kind with
  | .declaration =>
    let own : Slots :=
      { types := [(id, .type), (id, .declarator)]
        values := [(id, .value)]
        code := (id, .code) ::
          if n.isConversion then [(id, .name), (id, .shownName)] else [] }
    (own.append (parametersOf id n)).append (throwsOf id n)
  | .classDecl => { types := (List.range n.bases.length).map fun i => (id, .base i) }
  | .constructor =>
    let own : Slots := { types := [(id, .declarator)], code := [(id, .code)] }
    (own.append (parametersOf id n)).append (throwsOf id n)
  | .destructor => { code := [(id, .code)] }
  | .usingDecl => { values := nameSlots id .usedName n.usedName }
  | _ =>
    let own : Slots := { types := [(id, .type), (id, .declarator)], code := [(id, .code)] }
    ((own.append (parametersOf id n)).append (patternOf id n)).append (throwsOf id n)

/-- A visited node under its new kind and names, and its slots. -/
def visitNode (names : Names) (v : Visit) (n : Node) : Except Fault (Node × Slots) := do
  let n := if v.unwraps then { n with kind := ⟨v.kind, false⟩ } else n
  let (n, named) ←
    match v.kind with
    | .constructor => if v.isTemplate then pure (n, {}) else renameConstructor names v.id n
    | .destructor => pure (renameDestructor names v.id n)
    | _ => pure (n, {})
  return (n, named.append (slotsOf v.id v.kind n))

/-- All visited nodes under their new kinds and names, and their slots. -/
def visitAll (names : Names) : List Visit → DeclTree → Except Fault (DeclTree × Slots)
  | [], t => .ok (t, {})
  | v :: vs, t => do
    let (n, slots) ← visitNode names v (← t.node v.id)
    let (t, rest) ← visitAll names vs (t.modifyNode v.id fun _ => n)
    return (t, slots.append rest)

/-- Other types in the listed slots. -/
def mapTypes (f : CType → Except Fault CType) :
    List (NodeId × TypeSlot) → DeclTree → Except Fault DeclTree
  | [], t => .ok t
  | (id, slot) :: slots, t => do
    match (← t.node id).typeAt slot with
    | none => mapTypes f slots t
    | some old =>
      let new ← f old
      mapTypes f slots (t.modifyNode id (·.setType slot new))

/-- Other texts in the listed slots. -/
def mapTexts (f : Text → Text) (slots : List (NodeId × TextSlot)) (t : DeclTree) : DeclTree :=
  slots.foldl (fun t s => t.modifyNode s.1 (·.mapText s.2 f)) t

/-- The default of a template parameter as an argument. -/
def defaultArgument (p : Parameter) (default : Text) : TemplateArgument :=
  if p.type = "typename".toList || p.type = "class".toList then .type default else .value default

/-- One parameter replaced in every slot. A type also has the template's own name replaced. -/
def substitute (slots : Slots) (own instanceOf : Text) (name : Text) (arg : TemplateArgument)
    (t : DeclTree) : Except Fault DeclTree := do
  let spelling ← arg.spelling
  let t := mapTexts (·.replaceWhole name arg.text) slots.values t
  let t ← mapTypes (fun ty => do (← ty.rename name arg.text).rename own instanceOf) slots.types t
  return mapTexts (fun s => (s.replaceWhole ('#' :: name) ('"' :: spelling ++ ['"'])).replaceWhole
    name spelling) slots.code t

/-- The parameters replaced one after another, with the tree as it is then left. A parameter without
an argument takes its default, in which the parameters before it are replaced already. -/
def substituteAll (slots : Slots) (own instanceOf : Text) (mismatch : TemplateError) :
    List Parameter → List TemplateArgument → DeclTree →
    Except Fault (Except TemplateError Unit × DeclTree)
  | [], _, t => .ok (.ok (), t)
  | p :: ps, args, t =>
    match args.head?.or (p.value.map (defaultArgument p)) with
    | none => .ok (.error mismatch, t)
    | some arg =>
      match p.name with
      | none => substituteAll slots own instanceOf mismatch ps args.tail t
      | some name => do
        let t ← substitute slots own instanceOf name arg t
        let ps := ps.map fun later =>
          { later with value := later.value.map (·.replaceWhole name arg.text) }
        substituteAll slots own instanceOf mismatch ps args.tail t
termination_by ps => ps.length

/-- The parameters of a definition replaced; where it has none, only the template's own name. -/
def fillSlots (slots : Slots) (own instanceOf : Text) (mismatch : TemplateError)
    (parameters : List Parameter) (args : List TemplateArgument) (t : DeclTree) :
    Except Fault (Except TemplateError Unit × DeclTree) :=
  if parameters.isEmpty then (mapTypes (·.rename own instanceOf) slots.types t).map (.ok (), ·)
  else substituteAll slots own instanceOf mismatch parameters args t

/-- More arguments than parameters are given, or a parameter has neither argument nor default. A
definition without parameters takes any arguments. -/
def mismatches (parameters : List Parameter) (given : Nat) : Bool :=
  (!parameters.isEmpty && parameters.length < given) ||
    (parameters.drop given).any fun p => p.value.isNone

/-- Turns the declaration `id` and what lies below it into the instance that `e` describes. The
base classes are qualified in the current scope. The tree is given as it is left, whether or not the
expansion went through. -/
def expandInPlace (e : Instantiation) (t : DeclTree) (g : ScopeGraph) (id : NodeId) :
    Except Fault (Except TemplateError Unit × DeclTree) := do
  let definition ← t.node id
  let template ← CType.templateStem (definition.name.getD [])
  let parameters := definition.templateParameters
  let mismatch := TemplateError.arityMismatch template parameters.length e.arguments.length
  if mismatches parameters e.arguments.length then return (.error mismatch, t)
  let names : Names := ⟨template, e.shownName, argumentBlock e.instanceArguments⟩
  let (t, slots) ← visitAll names (← t.visits id) t
  let t := t.modifyNode id fun n => { n with name := n.name.map fun _ => names.instance }
  let (result, t) ←
    fillSlots slots (QualifiedName.last template) names.instance mismatch parameters e.arguments t
  match result with
  | .error mismatch => return (.error mismatch, t)
  | .ok () =>
    let bases ← (← t.node id).bases.mapM g.qualify
    return (.ok (), t.modifyNode id fun n => { n with bases := bases })

/-- The tree after an expansion that went through. -/
def expand (e : Instantiation) (t : DeclTree) (g : ScopeGraph) (id : NodeId) :
    Except Fault (Except TemplateError DeclTree) := do
  let (result, t) ← e.expandInPlace t g id
  return result.map fun _ => t

end Instantiation

end BindingTypes
