import BindingTypes.Proofs.CType.Spelled
import BindingTypes.Proofs.Declaration.Lexing
import BindingTypes.Proofs.Declaration.Rules

namespace BindingTypes.Declaration

open CType

/-- Behind some open brackets, round and square ones close in the order in which they were
opened. -/
inductive Matched : List Char → List Text → Prop
  | nil : Matched [] []
  | word {st : List Char} {w : Text} {ws : List Text} (hne : w ≠ [])
      (hw : ∀ c ∈ w, c ∉ "()[]<".toList) (h : Matched st ws) : Matched st (w :: ws)
  | less {st : List Char} {ws : List Text} (h : Matched st ws) : Matched st (['<'] :: ws)
  | openRound {st : List Char} {ws : List Text} (h : Matched ('(' :: st) ws) :
      Matched st (['('] :: ws)
  | openSquare {st : List Char} {ws : List Text} (h : Matched ('[' :: st) ws) :
      Matched st (['['] :: ws)
  | closeRound {st : List Char} {ws : List Text} (h : Matched st ws) :
      Matched ('(' :: st) ([')'] :: ws)
  | closeSquare {st : List Char} {ws : List Text} (h : Matched st ws) :
      Matched ('[' :: st) ([']'] :: ws)

/-- No parenthesis follows an angle bracket. -/
def Apart (ws : List Text) : Prop := ¬ [['<'], ['(']] <:+: ws

instance (ws : List Text) : Decidable (Apart ws) := inferInstanceAs (Decidable (¬ _))

/-- Tokens that start a name hold nothing else, and where that is asked the brackets behind the open
ones match and angle brackets stand apart from parentheses. -/
structure Bracketed (matching strict : Prop) (st : List Char) (ts : List Token) : Prop where
  words : ∀ token ∈ ts, startsName token.text = true → ∀ c ∈ token.text, isIdentChar c = true
  matched : matching → Matched st (ts.map (·.text))
  apart : strict → Apart (ts.map (·.text))

variable {matching strict : Prop} {st opened : List Char} {bracket : Char} {token : Token}
  {ts rest rest' : List Token} {w t raw source : Text} {ws : List Text} {stops : List Text}
  {depth fuel : Nat} {afterWord : Bool}

section Tokens

theorem Matched.skip (h : Matched st (w :: ws)) (hw : w ∉ brackets) : Matched st ws := by
  cases h with
  | word _ _ h => exact h
  | less h => exact h
  | openRound _ => exact absurd (by decide) hw
  | openSquare _ => exact absurd (by decide) hw
  | closeRound _ => exact absurd (by decide) hw
  | closeSquare _ => exact absurd (by decide) hw

theorem Matched.round (h : Matched st (['('] :: ws)) : Matched ('(' :: st) ws := by
  cases h with
  | word _ hw _ => exact absurd (by decide) (hw '(' List.mem_cons_self)
  | openRound h => exact h

theorem Matched.square (h : Matched st (['['] :: ws)) : Matched ('[' :: st) ws := by
  cases h with
  | word _ hw _ => exact absurd (by decide) (hw '[' List.mem_cons_self)
  | openSquare h => exact h

/-- What a token that is no bracket has to be. -/
theorem Matched.cons_iff (hw : w ∉ brackets) : Matched st (w :: ws) ↔
    (w = ['<'] ∨ (w ≠ [] ∧ ∀ c ∈ w, c ∉ "()[]<".toList)) ∧ Matched st ws := by
  constructor
  · intro h
    refine ⟨?_, h.skip hw⟩
    cases h with
    | word hne hchars _ => exact Or.inr ⟨hne, hchars⟩
    | less _ => exact Or.inl rfl
    | openRound _ => exact absurd (by decide) hw
    | openSquare _ => exact absurd (by decide) hw
    | closeRound _ => exact absurd (by decide) hw
    | closeSquare _ => exact absurd (by decide) hw
  · rintro ⟨rfl | ⟨hne, hchars⟩, h⟩
    · exact .less h
    · exact .word hne hchars h

theorem Matched.closeRound_iff : Matched st ([')'] :: ws) ↔ st.head? = some '(' ∧ Matched st.tail ws := by
  constructor
  · intro h
    cases h with
    | word _ hw _ => exact absurd (by decide) (hw ')' List.mem_cons_self)
    | closeRound h => exact ⟨rfl, h⟩
  · rintro ⟨hhead, h⟩
    obtain ⟨st, rfl⟩ := List.head?_eq_some_iff.mp hhead
    exact .closeRound h

theorem Matched.closeSquare_iff :
    Matched st ([']'] :: ws) ↔ st.head? = some '[' ∧ Matched st.tail ws := by
  constructor
  · intro h
    cases h with
    | word _ hw _ => exact absurd (by decide) (hw ']' List.mem_cons_self)
    | closeSquare h => exact ⟨rfl, h⟩
  · rintro ⟨hhead, h⟩
    obtain ⟨st, rfl⟩ := List.head?_eq_some_iff.mp hhead
    exact .closeSquare h

instance Matched.decidable : ∀ st ws, Decidable (Matched st ws)
  | [], [] => isTrue .nil
  | _ :: _, [] => isFalse fun h => by cases h
  | st, w :: ws =>
    if ho : w = ['('] then
      have := Matched.decidable ('(' :: st) ws
      decidable_of_iff (Matched ('(' :: st) ws) (ho ▸ ⟨.openRound, .round⟩)
    else if hs : w = ['['] then
      have := Matched.decidable ('[' :: st) ws
      decidable_of_iff (Matched ('[' :: st) ws) (hs ▸ ⟨.openSquare, .square⟩)
    else if hc : w = [')'] then
      have := Matched.decidable st.tail ws
      decidable_of_iff (st.head? = some '(' ∧ Matched st.tail ws) (hc ▸ Matched.closeRound_iff.symm)
    else if hd : w = [']'] then
      have := Matched.decidable st.tail ws
      decidable_of_iff (st.head? = some '[' ∧ Matched st.tail ws) (hd ▸ Matched.closeSquare_iff.symm)
    else
      have := Matched.decidable st ws
      have : Decidable (∀ c ∈ w, c ∉ "()[]<".toList) := List.decidableBAll _ w
      decidable_of_iff ((w = ['<'] ∨ (w ≠ [] ∧ ∀ c ∈ w, c ∉ "()[]<".toList)) ∧ Matched st ws)
        (Matched.cons_iff (by simp [brackets, ho, hs, hc, hd])).symm

namespace Bracketed

theorem tail {st' : List Char} (h : Bracketed matching strict st (token :: ts))
    (hm : Matched st (token.text :: ts.map (·.text)) → Matched st' (ts.map (·.text))) :
    Bracketed matching strict st' ts where
  words token' htoken' := h.words token' (List.mem_cons_of_mem _ htoken')
  matched hmatching := hm (h.matched hmatching)
  apart hs happears := h.apart hs (List.infix_cons happears)

theorem skip (h : Bracketed matching strict st (token :: ts)) (hw : token.text ∉ brackets) :
    Bracketed matching strict st ts := h.tail fun hm => hm.skip hw

theorem round (h : Bracketed matching strict st (token :: ts)) (hw : token.text = ['(']) :
    Bracketed matching strict ('(' :: st) ts := h.tail fun hm => (hw ▸ hm).round

theorem square (h : Bracketed matching strict st (token :: ts)) (hw : token.text = ['[']) :
    Bracketed matching strict ('[' :: st) ts := h.tail fun hm => (hw ▸ hm).square

/-- A closing bracket takes the innermost open one away, and matches it where that is asked. -/
theorem closing {o : Char} (h : Bracketed matching strict (bracket :: st) (token :: ts))
    (hclose : ∀ {ws}, Matched (bracket :: st) (token.text :: ws) → bracket = o ∧ Matched st ws) :
    Bracketed matching strict st ts ∧ (matching → bracket = o) :=
  ⟨h.tail fun hm => (hclose hm).2, fun hmatching => (hclose (h.matched hmatching)).1⟩

theorem endRound (h : Bracketed matching strict (bracket :: st) (token :: ts))
    (hw : token.text = [')']) : Bracketed matching strict st ts ∧ (matching → bracket = '(') :=
  h.closing fun hm => by
    rw [hw] at hm
    exact (Matched.closeRound_iff.mp hm).imp_left Option.some.inj

theorem endSquare (h : Bracketed matching strict (bracket :: st) (token :: ts))
    (hw : token.text = [']']) : Bracketed matching strict st ts ∧ (matching → bracket = '[') :=
  h.closing fun hm => by
    rw [hw] at hm
    exact (Matched.closeSquare_iff.mp hm).imp_left Option.some.inj

theorem chars (h : Bracketed matching strict st (token :: ts)) (hmatching : matching)
    (hw : token.text ∉ brackets) :
    token.text = ['<'] ∨ ∀ c ∈ token.text, c ∉ "()[]<".toList :=
  ((Matched.cons_iff hw).mp (h.matched hmatching)).1.imp id And.right

/-- A token that is no bracket holds none. -/
theorem plain (h : Bracketed matching strict st (token :: ts)) (hmatching : matching)
    (hw : token.text ∉ brackets) : Balanced token.text := by
  rcases h.chars hmatching hw with hless | hchars
  · rw [hless]
    decide
  · refine balanced_of_notMem (fun hc => ?_) fun hc => ?_
    · exact hchars '(' hc (by decide)
    · exact hchars ')' hc (by decide)

/-- One token on, the open brackets are as deep as its kind says. -/
theorem step (h : Bracketed matching strict (opened ++ st) (token :: ts))
    (hclosed : (decide (token.text = [')']) || decide (token.text = [']'])) = true → opened ≠ []) :
    ∃ opened', Bracketed matching strict (opened' ++ st) ts ∧
      opened'.length =
        (if (decide (token.text = ['(']) || decide (token.text = ['['])) = true then
          opened.length + 1
        else if (decide (token.text = [')']) || decide (token.text = [']'])) = true then
          opened.length - 1
        else opened.length) ∧
      (matching → parensAfter (opened.count '(') token.text = some (opened'.count '(')) := by
  by_cases hround : token.text = ['(']
  · refine ⟨'(' :: opened, h.round hround, by rw [hround]; rfl, fun _ => ?_⟩
    rw [hround, List.count_cons_self]
    rfl
  by_cases hsquare : token.text = ['[']
  · refine ⟨'[' :: opened, h.square hsquare, by rw [hsquare]; rfl, fun _ => ?_⟩
    rw [hsquare, List.count_cons_of_ne (by decide)]
    rfl
  by_cases hendRound : token.text = [')']
  · obtain ⟨bracket, o, rfl⟩ := List.exists_cons_of_ne_nil (hclosed (by rw [hendRound]; rfl))
    obtain ⟨hrest, hbracket⟩ := h.endRound hendRound
    refine ⟨o, hrest, by rw [hendRound]; rfl, fun hmatching => ?_⟩
    rw [hendRound, hbracket hmatching, List.count_cons_self]
    rfl
  by_cases hendSquare : token.text = [']']
  · obtain ⟨bracket, o, rfl⟩ := List.exists_cons_of_ne_nil (hclosed (by rw [hendSquare]; rfl))
    obtain ⟨hrest, hbracket⟩ := h.endSquare hendSquare
    refine ⟨o, hrest, by rw [hendSquare]; rfl, fun hmatching => ?_⟩
    rw [hendSquare, hbracket hmatching, List.count_cons_of_ne (by decide)]
    rfl
  have hw : token.text ∉ brackets := by
    simp only [brackets, List.mem_cons, List.not_mem_nil, or_false]
    rintro (h | h | h | h)
    · exact hround h
    · exact hsquare h
    · exact hendRound h
    · exact hendSquare h
  refine ⟨opened, h.skip hw, ?_, fun hmatching => (h.plain hmatching hw).after _⟩
  simp only [hround, hsquare, hendRound, hendSquare, decide_false, Bool.or_self,
    Bool.false_eq_true, if_false]

theorem less_notMem (h : Bracketed matching strict st (token :: ts)) (hmatching : matching)
    (hless : token.text ≠ ['<']) : '<' ∉ token.text := by
  by_cases hw : token.text ∈ brackets
  · have hall : ∀ w ∈ brackets, '<' ∉ w := by decide
    exact hall _ hw
  · exact fun hc => (h.chars hmatching hw).resolve_left hless '<' hc (by decide)

end Bracketed

end Tokens

/-- Copied text begins with a parenthesis where the first token does. -/
theorem rawUntil_head (hb : Bracketed matching strict st ts) (hmatching : matching)
    (h : rawUntil source stops depth false ts = .ok (raw, rest)) (hraw : raw.head? = some '(') :
    ∃ token rest', ts = token :: rest' ∧ token.text = ['('] := by
  cases ts with
  | nil => cases h
  | cons token ts =>
    unfold rawUntil at h
    split at h
    · cases h
      cases hraw
    · dsimp only at h
      split at h
      · cases h
      · obtain ⟨r, -, hr⟩ := map_eq_ok h
        cases hr
        refine ⟨token, ts, rfl, ?_⟩
        have hm := hb.matched hmatching
        rw [List.map_cons] at hm
        simp only [Bool.false_and, Bool.false_eq_true, if_false, List.nil_append] at hraw
        generalize token.text = w at hm hraw
        cases hm with
        | word hne hw _ =>
          obtain ⟨c, w, rfl⟩ := List.exists_cons_of_ne_nil hne
          cases hraw
          exact absurd (by decide) (hw '(' List.mem_cons_self)
        | openRound _ => rfl
        | less _ => cases hraw
        | openSquare _ => cases hraw
        | closeRound _ => cases hraw
        | closeSquare _ => cases hraw

/-- What is copied up to a stop closes what it opens. -/
theorem rawUntil_bracketed {o : List Char} (hb : Bracketed matching strict (o ++ st) ts)
    (h : rawUntil source stops o.length afterWord ts = .ok (raw, rest)) :
    Bracketed matching strict st rest ∧
      (matching → parensAfter (o.count '(') raw = some 0) ∧
      (matching → strict → NoOpening raw) := by
  induction ts generalizing o afterWord raw with
  | nil => cases h
  | cons token ts ih =>
    unfold rawUntil at h
    split at h
    · rename_i hstop
      cases h
      cases List.length_eq_zero_iff.mp hstop.1
      exact ⟨hb, fun _ => rfl, fun _ _ => noOpening_of_notMem List.not_mem_nil⟩
    · dsimp only at h
      split at h
      · cases h
      · rename_i hclosed
        obtain ⟨r, hr, he⟩ := map_eq_ok h
        cases he
        obtain ⟨o', hb', hlength, hparens⟩ := hb.step fun hclose hnil => hclosed (by
          rw [hclose, hnil]
          rfl)
        rw [← hlength] at hr
        obtain ⟨hrest, hparens', hno⟩ := ih hb' hr
        have hgap : Balanced (if (afterWord && isWord token.text) = true then [' '] else []) ∧
            '<' ∉ (if (afterWord && isWord token.text) = true then [' '] else [] : Text) := by
          split <;> decide
        rw [List.append_assoc]
        refine ⟨hrest, fun hm => ?_, fun hm hs => NoOpening.append ?_ hgap.2⟩
        · simp only [parensAfter_append, hgap.1.after, hparens hm, Option.bind_some, hparens' hm]
        · by_cases hless : token.text = ['<']
          · rw [hless] at hr ⊢
            refine (hno hm hs).cons_less fun hhead => ?_
            -- a parenthesis would stand behind the angle bracket in the tokens too
            obtain ⟨token', rest', rfl, htoken'⟩ := rawUntil_head hb' hm hr hhead
            refine hb.apart hs ⟨[], rest'.map (·.text), ?_⟩
            rw [List.map_cons, List.map_cons, hless, htoken']
            rfl
          · exact (hno hm hs).append (hb.less_notMem hm hless)

theorem rawUntil_read (hb : Bracketed matching strict st ts)
    (h : rawUntil source stops 0 afterWord ts = .ok (raw, rest)) :
    Bracketed matching strict st rest ∧ (matching → Balanced raw) ∧
      (matching → strict → NoOpening raw) :=
  rawUntil_bracketed (o := []) hb h

end BindingTypes.Declaration
