import BindingTypes.Registry.Basic

namespace BindingTypes.Registry

/-- All names listed for any type, each as often as it is listed. -/
def listings (r : Registry) : Nat := r.names.entries.foldr (fun e n => e.2.size + n) 0

/-- The types a name denotes that were not seen before, and the names listed for them. -/
def expandTypes (r : Registry) : List CType → Table Unit → List Text × Table Unit
  | [], seen => ([], seen)
  | t :: ts, seen =>
    if seen.contains t then r.expandTypes ts seen
    else
      let rest := r.expandTypes ts (seen.insert t ())
      ((r.namesOf t).keys ++ rest.1, rest.2)

/-- Names still to be followed join `found`, and so do the names of the types they denote. Each
type is looked at once, so no more names are followed than are listed. -/
def closure (r : Registry) :
    (fuel : Nat) → (work : List Text) → (seen found : Table Unit) → Table Unit
  | 0, _, _, found => found
  | _, [], _, found => found
  | n + 1, name :: work, seen, found =>
    if found.contains name then r.closure n work seen found
    else
      let (names, seen) := r.expandTypes (r.denotedBy name).keys seen
      r.closure n (names ++ work) seen (found.insert name ())

/-- The runtime names equivalent to `name`, itself included, in order. -/
def equivalents (r : Registry) (name : Text) : List Text :=
  (r.closure (r.listings + 2) [name] ∅ ∅).keys

/-- The first answer in a list of names; names that were checked are passed on. -/
def firstData (search : Table Unit → Text → Option Text × Table Unit) :
    List Text → Table Unit → Option Text × Table Unit
  | [], checked => (none, checked)
  | name :: names, checked =>
    match search checked name with
    | (some data, checked) => (some data, checked)
    | (none, checked) => firstData search names checked

/-- The client data of the first type that has any, or that is found through the names of the
types before it. -/
def firstTypeData (r : Registry) (search : Table Unit → Text → Option Text × Table Unit) :
    List CType → Table Unit → Option Text × Table Unit
  | [], checked => (none, checked)
  | t :: ts, checked =>
    match r.clientData.get? t with
    | some data => (some data, checked)
    | none =>
      match firstData search (r.namesOf t).keys checked with
      | (some data, checked) => (some data, checked)
      | (none, checked) => r.firstTypeData search ts checked

def searchClientData (r : Registry) :
    (fuel : Nat) → Table Unit → Text → Option Text × Table Unit
  | 0, checked, _ => (none, checked)
  | n + 1, checked, name =>
    if checked.contains name then (none, checked)
    else r.firstTypeData (r.searchClientData n) (r.denotedBy name).keys (checked.insert name ())

/-- The first client data among the types equivalent to a name. -/
def clientDataOf (r : Registry) (name : Text) : Option Text :=
  (r.searchClientData (r.listings + 2) ∅ name).1

end BindingTypes.Registry
