import BindingTypes.Text.Measured

namespace BindingTypes

/-- A finite map from text, its keys in strictly ascending order. -/
structure Table (α : Type) where
  cells : List (MeasuredText × α)
  ascending : cells.Pairwise fun a b => a.1.text < b.1.text
deriving DecidableEq

namespace Table

variable {α : Type}

def lookupIn (k : MeasuredText) : List (MeasuredText × α) → Option α
  | [] => none
  | (k', a) :: rest => if k.same k' then some a else lookupIn k rest

def insertInto (k : MeasuredText) (a : α) : List (MeasuredText × α) → List (MeasuredText × α)
  | [] => [(k, a)]
  | (k', a') :: rest =>
    if k.same k' then (k, a) :: rest
    else if k.text < k'.text then (k, a) :: (k', a') :: rest
    else (k', a') :: insertInto k a rest

theorem lt_of_not_lt {a b : Text} (hne : a ≠ b) (h : ¬ a < b) : b < a :=
  Classical.byContradiction fun h' =>
    hne (List.le_antisymm (List.not_lt.mp h') (List.not_lt.mp h))

theorem mem_insertInto {k : MeasuredText} {a : α} {e : MeasuredText × α}
    {l : List (MeasuredText × α)} (h : e ∈ insertInto k a l) : e = (k, a) ∨ e ∈ l := by
  induction l with
  | nil => simpa [insertInto] using h
  | cons hd rest ih =>
    obtain ⟨k', a'⟩ := hd
    simp only [insertInto] at h
    split at h
    next => rcases List.mem_cons.mp h with h | h <;> simp [h]
    next =>
      split at h
      next => rcases List.mem_cons.mp h with h | h <;> simp_all
      next =>
        rcases List.mem_cons.mp h with h | h
        · simp [h]
        · rcases ih h with h | h <;> simp [h]

theorem ascending_insertInto (k : MeasuredText) (a : α) {l : List (MeasuredText × α)}
    (h : l.Pairwise fun a b => a.1.text < b.1.text) :
    (insertInto k a l).Pairwise fun a b => a.1.text < b.1.text := by
  induction l with
  | nil => simp [insertInto]
  | cons hd rest ih =>
    obtain ⟨k', a'⟩ := hd
    obtain ⟨hfirst, hrest⟩ := List.pairwise_cons.mp h
    simp only [insertInto]
    split
    next hk =>
      refine List.pairwise_cons.mpr ⟨fun e he => ?_, hrest⟩
      rw [MeasuredText.same_iff.mp hk]
      exact hfirst e he
    next hk =>
      split
      next hlt =>
        refine List.pairwise_cons.mpr ⟨fun e he => ?_, h⟩
        rcases List.mem_cons.mp he with rfl | he
        · exact hlt
        · exact List.lt_trans hlt (hfirst e he)
      next hlt =>
        refine List.pairwise_cons.mpr ⟨fun e he => ?_, ih hrest⟩
        rcases mem_insertInto he with rfl | he
        · exact lt_of_not_lt (mt MeasuredText.same_iff.mpr hk) hlt
        · exact hfirst e he

def empty : Table α := ⟨[], .nil⟩

instance : EmptyCollection (Table α) := ⟨empty⟩

/-- The keys with their values, in strictly ascending order of the keys. -/
def entries (t : Table α) : List (Text × α) := t.cells.map fun c => (c.1.text, c.2)

def get? (t : Table α) (k : Text) : Option α := lookupIn k.measured t.cells

def contains (t : Table α) (k : Text) : Bool := (t.get? k).isSome

/-- A value already stored under the key is replaced. -/
def insert (t : Table α) (k : Text) (a : α) : Table α :=
  ⟨insertInto k.measured a t.cells, ascending_insertInto k.measured a t.ascending⟩

def erase (t : Table α) (k : Text) : Table α :=
  ⟨t.cells.filter fun c => !k.measured.same c.1, t.ascending.filter _⟩

def keys (t : Table α) : List Text := t.cells.map fun c => c.1.text

def size (t : Table α) : Nat := t.cells.length

def isEmpty (t : Table α) : Bool := t.cells.isEmpty

/-- Later pairs win over earlier ones with the same key. -/
def ofList (l : List (Text × α)) : Table α :=
  l.foldl (fun t e => t.insert e.1 e.2) empty

theorem lookupIn_cons (k k' : MeasuredText) (a : α) (l : List (MeasuredText × α)) :
    lookupIn k ((k', a) :: l) = if k.text = k'.text then some a else lookupIn k l := by
  simp only [lookupIn, MeasuredText.same_iff]

theorem lookupIn_insertInto (k k' : MeasuredText) (a : α) (l : List (MeasuredText × α)) :
    lookupIn k' (insertInto k a l) = if k'.text = k.text then some a else lookupIn k' l := by
  induction l with
  | nil => simp [insertInto, lookupIn_cons]
  | cons hd rest ih =>
    obtain ⟨k'', a''⟩ := hd
    simp only [insertInto, MeasuredText.same_iff]
    split
    next h => by_cases h' : k'.text = k.text <;> simp [lookupIn_cons, h', ← h]
    next h =>
      split
      next => by_cases h' : k'.text = k.text <;> simp [lookupIn_cons, h']
      next => by_cases h' : k'.text = k.text <;> simp [lookupIn_cons, ih, h', h]

theorem lookupIn_filter_not_same (k k' : MeasuredText) (l : List (MeasuredText × α)) :
    lookupIn k' (l.filter fun c => !k.same c.1) =
      if k'.text = k.text then none else lookupIn k' l := by
  induction l with
  | nil => simp [lookupIn]
  | cons hd rest ih =>
    obtain ⟨k'', a''⟩ := hd
    by_cases h : k.text = k''.text
    · have hs : k.same k'' = true := MeasuredText.same_iff.mpr h
      by_cases h' : k'.text = k.text <;> simp_all [lookupIn_cons]
    · have hs : k.same k'' = false :=
        Bool.eq_false_iff.mpr (mt MeasuredText.same_iff.mp h)
      by_cases h' : k'.text = k.text <;> simp_all [lookupIn_cons]

theorem get?_insert (t : Table α) (k k' : Text) (a : α) :
    (t.insert k a).get? k' = if k' = k then some a else t.get? k' :=
  lookupIn_insertInto k.measured k'.measured a t.cells

theorem get?_erase (t : Table α) (k k' : Text) :
    (t.erase k).get? k' = if k' = k then none else t.get? k' :=
  lookupIn_filter_not_same k.measured k'.measured t.cells

@[simp] theorem get?_empty (k : Text) : (∅ : Table α).get? k = none := rfl

theorem mem_keys_iff {t : Table α} {k : Text} : k ∈ t.keys ↔ (t.get? k).isSome = true := by
  unfold keys get?
  induction t.cells with
  | nil => simp [lookupIn]
  | cons hd rest ih =>
    obtain ⟨k', a⟩ := hd
    by_cases h : k = k'.text <;> simp_all [lookupIn_cons]

end Table

end BindingTypes
