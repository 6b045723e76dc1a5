import BindingTypes.Text.Basic

namespace BindingTypes

/-- A line of a file. Line 0 marks a place that no file holds. -/
structure Location where
  file : Text := []
  line : Nat := 0
deriving DecidableEq, Repr, Inhabited

namespace Location

def synthetic : Location := {}

def isSynthetic (l : Location) : Bool := l.line = 0

def text (l : Location) : Text := l.file ++ ':' :: Text.ofNat l.line

/-- The form that shows what kind of value it is. -/
def debugText (l : Location) : Text :=
  if l.isSynthetic then "SourceLoc(<synthetic>)".toList
  else "SourceLoc(".toList ++ l.text ++ [')']

/-- Files in the order of their names, then lines. -/
def order (a b : Location) : Ordering := (compare a.file b.file).then (compare a.line b.line)

end Location

end BindingTypes
