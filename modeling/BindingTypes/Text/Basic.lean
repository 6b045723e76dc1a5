namespace BindingTypes

/-- Text is a sequence of characters; its order is that of code points. -/
abbrev Text := List Char

namespace Text

/-- What follows `p` at the start of a text. -/
def after? : (t p : Text) → Option Text
  | t, [] => some t
  | [], _ :: _ => none
  | b :: t, a :: p => if a = b then after? t p else none

def startsWith (t p : Text) : Bool := (after? t p).isSome

def endsWith (t s : Text) : Bool := s.isSuffixOf t

/-- The text before and behind the first occurrence of `needle`. -/
def cut? : (t needle : Text) → Option (Text × Text)
  | [], needle => if needle = [] then some ([], []) else none
  | c :: cs, needle =>
    match after? (c :: cs) needle with
    | some rest => some ([], rest)
    | none => (cut? cs needle).map fun r => (c :: r.1, r.2)

def has (t needle : Text) : Bool := (cut? t needle).isSome

/-- Every occurrence of a non-empty `pat`, from the left and without overlap, becomes `rep`;
the number counts the characters of an occurrence still to be passed over. -/
def replaceFrom (pat rep : Text) : Nat → Text → Text
  | _, [] => []
  | n + 1, _ :: cs => replaceFrom pat rep n cs
  | 0, c :: cs =>
    if startsWith (c :: cs) pat then rep ++ replaceFrom pat rep (pat.length - 1) cs
    else c :: replaceFrom pat rep 0 cs

/-- An empty pattern occurs before every character and at the end. -/
def replaceAll (t pat rep : Text) : Text :=
  if pat = [] then rep ++ t.flatMap fun c => c :: rep
  else replaceFrom pat rep 0 t

def commaJoin (parts : List Text) : Text := List.intercalate [','] parts

/-- The decimal digits of a number. -/
def ofNat (n : Nat) : Text := Nat.toDigits 10 n

theorem after?_eq_some_iff {t p r : Text} : after? t p = some r ↔ t = p ++ r := by
  induction p generalizing t with
  | nil => simp [after?, eq_comm]
  | cons a p ih =>
    cases t with
    | nil => simp [after?]
    | cons b t =>
      by_cases h : a = b
      · subst h; simp [after?, ih]
      · simp [after?, h, Ne.symm h]

/-- What holds of the empty text and is kept where texts are put together holds of all parts put
together. -/
theorem flatten_of_forall {P : Text → Prop} {parts : List Text} (nil : P [])
    (append : ∀ {s t : Text}, P s → P t → P (s ++ t)) (h : ∀ p ∈ parts, P p) :
    P parts.flatten := by
  induction parts with
  | nil => exact nil
  | cons p ps ih =>
    obtain ⟨hp, hps⟩ := List.forall_mem_cons.mp h
    exact append hp (ih hps)

theorem commaJoin_of_forall {P : Text → Prop} {parts : List Text} (nil : P [])
    (append : ∀ {s t : Text}, P s → P t → P (s ++ t)) (comma : P [','])
    (h : ∀ p ∈ parts, P p) : P (commaJoin parts) := by
  unfold commaJoin
  induction parts with
  | nil => exact nil
  | cons p ps ih =>
    obtain ⟨hp, hps⟩ := List.forall_mem_cons.mp h
    cases ps with
    | nil =>
      rw [List.intercalate_singleton]
      exact hp
    | cons q ps =>
      rw [List.intercalate_cons_cons]
      exact append (append hp comma) (ih hps)

theorem startsWith_iff {t p : Text} : startsWith t p = true ↔ ∃ r, t = p ++ r := by
  simp [startsWith, Option.isSome_iff_exists, after?_eq_some_iff]

theorem endsWith_iff {t s : Text} : endsWith t s = true ↔ ∃ r, t = r ++ s := by
  rw [endsWith, List.isSuffixOf_iff_suffix]
  exact ⟨fun ⟨r, h⟩ => ⟨r, h.symm⟩, fun ⟨r, h⟩ => ⟨r, h.symm⟩⟩

theorem eq_of_cut? {t needle front rest : Text} (h : cut? t needle = some (front, rest)) :
    t = front ++ needle ++ rest := by
  induction t generalizing front rest with
  | nil =>
    by_cases hn : needle = [] <;> simp_all [cut?]
  | cons c cs ih =>
    unfold cut? at h
    split at h
    next r hr =>
      obtain ⟨rfl, rfl⟩ := by simpa using h
      simpa using after?_eq_some_iff.mp hr
    next =>
      obtain ⟨⟨f, r⟩, hf, he⟩ := Option.map_eq_some_iff.mp h
      obtain ⟨rfl, rfl⟩ := by simpa using he
      simp [ih hf]

end Text

end BindingTypes
