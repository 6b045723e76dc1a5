import BindingTypes.Text.Basic

namespace BindingTypes.QualifiedName

/-- The bracket depth behind a character; round and angle brackets count alike. -/
def depthAfter (depth : Nat) (c : Char) : Nat :=
  if c = '<' ∨ c = '(' then depth + 1
  else if c = '>' ∨ c = ')' then depth - 1
  else depth

/-- The text before and behind the first `::` outside brackets. -/
def cutFirst? : (depth : Nat) → Text → Option (Text × Text)
  | _, [] => none
  | 0, ':' :: ':' :: cs => some ([], cs)
  | depth, c :: cs => (cutFirst? (depthAfter depth c) cs).map fun r => (c :: r.1, r.2)

/-- The text before and behind the last `::` outside brackets. -/
def cutLast? : (depth : Nat) → Text → Option (Text × Text)
  | _, [] => none
  | 0, ':' :: ':' :: cs =>
    match cutLast? 0 cs with
    | some (front, last) => some (':' :: ':' :: front, last)
    | none => some ([], cs)
  | depth, c :: cs => (cutLast? (depthAfter depth c) cs).map fun r => (c :: r.1, r.2)

/-- A `::` stands outside brackets. -/
def isQualified (name : Text) : Bool := (cutFirst? 0 name).isSome

/-- The outermost component. -/
def first? (name : Text) : Option Text := (cutFirst? 0 name).map (·.1)

/-- What follows the outermost component. -/
def suffix? (name : Text) : Option Text := (cutFirst? 0 name).map (·.2)

/-- The innermost component. -/
def last (name : Text) : Text := ((cutLast? 0 name).map (·.2)).getD name

/-- What stands before the innermost component. -/
def scope? (name : Text) : Option Text := (cutLast? 0 name).map (·.1)

/-- Everything before the last separator, if there is one, and the innermost component. -/
def split (name : Text) : Option Text × Text :=
  match cutLast? 0 name with
  | some (scope, last) => (some scope, last)
  | none => (none, name)

/-- `name` inside the scope named `scope`; the global scope has the empty name. -/
def within (scope name : Text) : Text :=
  if scope = [] then name else scope ++ "::".toList ++ name

theorem split_eq (name : Text) : split name = (scope? name, last name) := by
  unfold split scope? last
  cases cutLast? 0 name <;> rfl

theorem append_of_cutFirst? {d : Nat} {name first suffix : Text}
    (h : cutFirst? d name = some (first, suffix)) : name = first ++ ':' :: ':' :: suffix := by
  fun_induction cutFirst? d name generalizing first suffix with
  | case1 => simp at h
  | case2 => cases h; rfl
  | case3 d c cs _ ih =>
    obtain ⟨r, hr, he⟩ := Option.map_eq_some_iff.mp h
    cases he
    simp [ih hr]

theorem append_of_cutLast? {d : Nat} {name front last : Text}
    (h : cutLast? d name = some (front, last)) : name = front ++ ':' :: ':' :: last := by
  fun_induction cutLast? d name generalizing front last with
  | case1 => simp at h
  | case2 cs front' last' hr ih => cases h; simp [ih hr]
  | case3 cs hr ih => cases h; rfl
  | case4 d c cs _ ih =>
    obtain ⟨r, hr, he⟩ := Option.map_eq_some_iff.mp h
    cases he
    simp [ih hr]

theorem append_of_split {name scope last : Text} (h : split name = (some scope, last)) :
    name = scope ++ ':' :: ':' :: last := by
  unfold split at h
  split at h
  · rename_i hcut
    cases h
    exact append_of_cutLast? hcut
  · cases h

theorem length_lt_of_cutLast? {d : Nat} {name front last : Text}
    (h : cutLast? d name = some (front, last)) : front.length < name.length := by
  rw [append_of_cutLast? h]
  simp

end BindingTypes.QualifiedName
