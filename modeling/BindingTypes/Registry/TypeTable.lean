import BindingTypes.Registry.Equivalence
import BindingTypes.Registry.Folding

namespace BindingTypes

/-- A runtime name that is accepted where the type of an entry is expected. -/
structure Equivalent where
  name : Text
  converter : Option Text
deriving DecidableEq, Repr

/-- One row of the type table. -/
structure TypeEntry where
  name : Text
  /-- The C spelling of the local type. -/
  localType : Text
  clientData : Option Text
  equivalents : List Equivalent
deriving DecidableEq, Repr

/-- The rows that the runtime is given, in the order of their names, and the converters. -/
structure TypeTable where
  entries : List TypeEntry
  converters : List Converter
deriving DecidableEq, Repr

def Converter.render (c : Converter) : Text :=
  "static void *".toList ++ c.name ++ "(void *x) \x7b\n    return (void *)((".toList ++ c.result ++
    ") ".toList ++ c.cast ++ " ((".toList ++ c.source ++ ") x));\n\x7d\n".toList

namespace TypeTable

/-- The position of a name, found by halving the range `low` to `high`. -/
def indexWithin (entries : List TypeEntry) (name : Text) (low high : Nat) : Option Nat :=
  if _h : low < high then
    let middle := (low + high) / 2
    match entries[middle]? with
    | none => none
    | some entry =>
      match compare name entry.name with
      | .eq => some middle
      | .lt => indexWithin entries name low middle
      | .gt => indexWithin entries name (middle + 1) high
  else none
termination_by high - low
decreasing_by all_goals omega

def indexOf? (t : TypeTable) (name : Text) : Option Nat :=
  indexWithin t.entries name 0 t.entries.length

def entry? (t : TypeTable) (name : Text) : Option TypeEntry :=
  (t.indexOf? name).bind (t.entries[·]?)

/-- Definitions that map each descriptor name to its place in the table. -/
def renderForward (t : TypeTable) (descriptor : Text) : Text :=
  "\n/* -------- TYPES TABLE (BEGIN) -------- */\n\n".toList ++
    (t.entries.mapIdx fun i e =>
      "#define  ".toList ++ descriptor ++ e.name ++ " swig_types[".toList ++ Text.ofNat i ++
        "] \n".toList).flatten ++
    "static swig_type_info *swig_types[".toList ++ Text.ofNat (t.entries.length + 1) ++
    "];\n\n/* -------- TYPES TABLE (END) -------- */\n\n".toList

def renderEquivalent (e : Equivalent) : Text :=
  match e.converter with
  | some converter => "\x7b\"".toList ++ e.name ++ "\", ".toList ++ converter ++ "\x7d,".toList
  | none => "\x7b\"".toList ++ e.name ++ "\"\x7d,".toList

def renderEntry (e : TypeEntry) : Text :=
  "static swig_type_info _swigt_".toList ++ e.name ++ "[] = \x7b\x7b\"".toList ++ e.name ++
    "\", 0, \"".toList ++ e.localType ++ "\", ".toList ++ e.clientData.getD ['0'] ++
    "\x7d,".toList ++ e.equivalents.flatMap renderEquivalent ++ "\x7b0\x7d\x7d;\n".toList

/-- The converters, one record for each entry, and the list of all records. -/
def render (t : TypeTable) : Text :=
  "\n/* -------- TYPE CONVERSION AND EQUIVALENCE RULES (BEGIN) -------- */\n\n".toList ++
    t.converters.flatMap Converter.render ++
    t.entries.flatMap renderEntry ++
    "\nstatic swig_type_info *swig_types_initial[] = \x7b\n".toList ++
    t.entries.flatMap (fun e => "_swigt_".toList ++ e.name ++ ", \n".toList) ++
    "0\n\x7d;\n\n\n/* -------- TYPE CONVERSION AND EQUIVALENCE RULES (END) -------- */\n\n".toList

end TypeTable

namespace Registry

/-- The row of a runtime name. -/
def tableEntry (r : Registry) (name : Text) : Except Fault TypeEntry := do
  let localType ← match r.locals.get? name with
    | some t => CType.spelling t
    | none => pure []
  return {
    name
    localType
    clientData := r.clientDataOf name
    equivalents := (r.equivalents name).map fun other =>
      ⟨other, r.conversions.get? (Environment.conversionKey other name)⟩ }

end Registry

namespace Environment

/-- The type table of everything remembered, subtypes folded in first. -/
def typeTable (env : Environment) : Except Fault (TypeTable × Environment) := do
  let env ← env.foldSubtypes
  let entries ← env.registry.denoted.keys.mapM env.registry.tableEntry
  return (⟨entries, env.registry.converters⟩, env)

end Environment

end BindingTypes
