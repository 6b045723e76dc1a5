import BindingTypes.Text.Identifier

namespace BindingTypes.Declaration

/-- A word, an operator or any other single character, with its offset in UTF-8 bytes. -/
structure Token where
  text : Text
  offset : Nat
deriving DecidableEq, Repr

def byteLength : Text → Nat
  | [] => 0
  | c :: cs => c.utf8Size + byteLength cs

theorem byteLength_append (a b : Text) : byteLength (a ++ b) = byteLength a + byteLength b := by
  induction a with
  | nil => simp [byteLength]
  | cons c cs ih => simp [byteLength, ih, Nat.add_assoc]

/-- The blanks between tokens. -/
def isSpace (c : Char) : Bool := c = ' ' || c = '\t' || c = '\n' || c = '\x0c' || c = '\r'

/-- The length of the token that begins with `c`. -/
def tokenLength (c : Char) (cs : Text) : Nat :=
  if isIdentChar c then (cs.takeWhile isIdentChar).length + 1
  else if Text.startsWith (c :: cs) "::".toList then 2
  else if Text.startsWith (c :: cs) "...".toList then 3
  else 1

theorem tokenLength_pos (c : Char) (cs : Text) : 0 < tokenLength c cs := by
  unfold tokenLength
  repeat' split
  all_goals omega

/-- The tokens of a text that starts at `offset`. -/
def tokensFrom (offset : Nat) (t : Text) : List Token :=
  match t with
  | [] => []
  | c :: cs =>
    if isSpace c then tokensFrom (offset + 1) cs
    else
      let word := (c :: cs).take (tokenLength c cs)
      ⟨word, offset⟩ :: tokensFrom (offset + byteLength word) ((c :: cs).drop (tokenLength c cs))
termination_by t.length
decreasing_by
  · simp
  · have := tokenLength_pos c cs
    simp only [List.length_drop, List.length_cons]
    omega

def tokens (t : Text) : List Token := tokensFrom 0 t

end BindingTypes.Declaration
