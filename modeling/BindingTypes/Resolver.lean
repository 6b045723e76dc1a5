import BindingTypes.CType.Array
import BindingTypes.Table

namespace BindingTypes

/-- A source of typedef expansions. -/
structure Resolver where
  /-- One expansion of the base; nothing when no typedef is named. -/
  expand? : CType → Except Fault (Option CType)
  /-- Expansion until no typedef remains. -/
  resolve : CType → Except Fault CType
  /-- The number of expansions a single question may take. -/
  budget : Nat

namespace Resolver

/-- Expansion until no typedef remains. A chain that comes back to an earlier type stops at that
type; a step that only wraps an earlier type in constructors is not taken. Of the types before `t`
the outlines are kept. -/
def chase {m : Type → Type} [Monad m] [MonadLiftT (Except Fault) m]
    (expand? : CType → m (Option CType)) :
    (budget : Nat) → (seen : List CType.Outline) → CType → m CType
  | 0, _, _ => Fault.exhausted.raise
  | n + 1, seen, t => do
    match ← expand? t with
    | none => return t
    | some next =>
      let outline ← next.outline
      let seen := (← t.outline) :: seen
      if seen.any outline.wraps then return t
      else if seen.any fun earlier => earlier.whole.same outline.whole then return next
      else chase expand? n seen next

/-- No typedefs at all. -/
def none : Resolver := ⟨fun _ => .ok .none, .ok, 0⟩

/-- The base of a type is looked up as a whole in one table. -/
def flatExpand? (typedefs : Table CType) (t : CType) : Except Fault (Option CType) := do
  let (front, base) ← CType.split t
  return (typedefs.get? base).map (front ++ ·)

def flat (typedefs : Table CType) (budget : Nat) : Resolver :=
  ⟨flatExpand? typedefs, chase (flatExpand? typedefs) (budget + 1) [], budget⟩

end Resolver

namespace CType

def isConstFrom (r : Resolver) : (budget : Nat) → (seen : List CType) → CType → Except Fault Bool
  | 0, _, _ => .error .exhausted
  | n + 1, seen, t => do
    if isQualifier t then
      if (← parameter t).has "const".toList then return true
    if !isSimple t || seen.contains t then return false
    match ← r.expand? t with
    | some next => isConstFrom r n (t :: seen) next
    | none => return false

/-- The outermost qualifier says `const`, directly or through typedefs of simple types. -/
def isConst (r : Resolver) (t : CType) : Except Fault Bool := isConstFrom r (r.budget + 1) [] t

/-- A value of the type can be assigned to. -/
def isMutable (r : Resolver) (t : CType) : Except Fault Bool := do
  let resolved ← r.resolve t
  let target ← if isReference resolved || isArray resolved then rest resolved else pure resolved
  return !(← isConst r target)

/-- The constructors of the resolved type, without qualifiers, read `declarator`. -/
def hasDeclarator (r : Resolver) (t declarator : CType) : Except Fault Bool := do
  return decide ((← front (← stripQualifiers (← r.resolve t))) = declarator)

end CType

end BindingTypes
