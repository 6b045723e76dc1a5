import BindingTypes.Declaration.Token
import BindingTypes.Text.Blank

namespace BindingTypes

namespace Text

variable {t w : Text} {c : Char}

theorem trimEnd_append (hw : w.any isBlank = false) (t : Text) :
    trimEnd (w ++ t) = w ++ trimEnd t := by
  induction w with
  | nil => rfl
  | cons c w ih =>
    obtain ⟨hc, hw⟩ := Bool.or_eq_false_iff.mp (List.any_cons ▸ hw)
    rw [List.cons_append, trimEnd, ih hw]
    cases hrest : w ++ trimEnd t with
    | nil => simp [hc, hrest]
    | cons d rest => simp [hrest]

theorem head?_of_trimEnd (h : (trimEnd t).head? = some c) : t.head? = some c := by
  cases t with
  | nil => cases h
  | cons d t =>
    rw [trimEnd] at h
    cases hrest : trimEnd t with
    | nil =>
      rw [hrest] at h
      dsimp only at h
      split at h
      · cases h
      · exact h
    | cons e rest =>
      rw [hrest] at h
      exact h

end Text

namespace Declaration

/-- The text falls into these tokens, with blanks between some of them. -/
inductive Lexes : Text → List Text → Prop
  | nil : Lexes [] []
  | space {c : Char} {t : Text} {ws : List Text} (hc : isSpace c = true) (h : Lexes t ws) :
      Lexes (c :: t) ws
  | word {w t : Text} {ws : List Text} (hw : w ≠ []) (hchars : ∀ c ∈ w, isIdentChar c = true)
      (hnext : ∀ c, t.head? = some c → isIdentChar c = false) (h : Lexes t ws) :
      Lexes (w ++ t) (w :: ws)
  | symbol {c : Char} {t : Text} {ws : List Text} (hc : c ∈ "*&<>()[],".toList) (h : Lexes t ws) :
      Lexes (c :: t) ([c] :: ws)
  | colons {t : Text} {ws : List Text} (h : Lexes t ws) :
      Lexes ("::".toList ++ t) ("::".toList :: ws)
  | dots {t : Text} {ws : List Text} (h : Lexes t ws) :
      Lexes ("...".toList ++ t) ("...".toList :: ws)

variable {t x y w : Text} {ws vs : List Text} {c : Char}

theorem isSpace_of_isIdentChar (h : isIdentChar c = true) : isSpace c = false := by
  cases hspace : isSpace c with
  | false => rfl
  | true =>
    simp only [isSpace, Bool.or_eq_true, decide_eq_true_eq] at hspace
    rcases hspace with (((rfl | rfl) | rfl) | rfl) | rfl <;> exact absurd h (by decide)

theorem isBlank_of_isSpace (h : isSpace c = true) : isBlank c = true := by
  simp only [isSpace, Bool.or_eq_true, decide_eq_true_eq] at h
  rcases h with (((rfl | rfl) | rfl) | rfl) | rfl <;> rfl

theorem isBlank_of_isIdentChar (h : isIdentChar c = true) : isBlank c = false := by
  have hrange : (48 ≤ c.toNat ∧ c.toNat ≤ 57) ∨ (65 ≤ c.toNat ∧ c.toNat ≤ 90) ∨
      c.toNat = 95 ∨ (97 ≤ c.toNat ∧ c.toNat ≤ 122) := by
    rcases Bool.or_eq_true_iff.mp h with halphanum | hunderscore
    · rcases Bool.or_eq_true_iff.mp halphanum with halpha | hdigit
      · rcases Bool.or_eq_true_iff.mp halpha with hupper | hlower
        · exact Or.inr (Or.inl (of_decide_eq_true hupper))
        · obtain ⟨hfirst, hlast⟩ := Bool.and_eq_true_iff.mp hlower
          exact Or.inr (Or.inr (Or.inr ⟨of_decide_eq_true hfirst, of_decide_eq_true hlast⟩))
      · obtain ⟨hfirst, hlast⟩ := Bool.and_eq_true_iff.mp hdigit
        exact Or.inl ⟨of_decide_eq_true hfirst, of_decide_eq_true hlast⟩
    · rw [of_decide_eq_true hunderscore]
      exact Or.inr (Or.inr (Or.inl rfl))
  simp only [isBlank, Bool.or_eq_false_iff, Bool.and_eq_false_iff, decide_eq_false_iff_not]
  omega

theorem symbol_facts (hc : c ∈ "*&<>()[],".toList) :
    isIdentChar c = false ∧ isSpace c = false ∧ isBlank c = false ∧ c ≠ ':' ∧ c ≠ '.' := by
  have hnone : ("*&<>()[],".toList.any fun d =>
      isIdentChar d || isSpace d || isBlank d || d = ':' || d = '.') = false := by decide
  have hcase := List.any_eq_false.mp hnone c hc
  simp only [Bool.not_eq_true, Bool.or_eq_false_iff, decide_eq_false_iff_not] at hcase
  obtain ⟨⟨⟨⟨hident, hspace⟩, hblank⟩, hcolon⟩, hdot⟩ := hcase
  exact ⟨hident, hspace, hblank, hcolon, hdot⟩

theorem tokenLength_symbol (hc : c ∈ "*&<>()[],".toList) (t : Text) : tokenLength c t = 1 := by
  obtain ⟨hident, -, -, hcolon, hdot⟩ := symbol_facts hc
  have hnotColons : Text.startsWith (c :: t) "::".toList = false := by
    simp [Text.startsWith, Text.after?, Ne.symm hcolon]
  have hnotDots : Text.startsWith (c :: t) "...".toList = false := by
    simp [Text.startsWith, Text.after?, Ne.symm hdot]
  rw [tokenLength, hident, hnotColons, hnotDots]
  rfl

/-- The tokens of a text are those it falls into. -/
theorem texts_tokensFrom (h : Lexes t ws) (offset : Nat) :
    (tokensFrom offset t).map (·.text) = ws := by
  induction h generalizing offset with
  | nil =>
    rw [tokensFrom]
    rfl
  | space hc _ ih =>
    rw [tokensFrom, if_pos hc]
    exact ih _
  | @word w t ws hw hchars hnext _ ih =>
    obtain ⟨c, w, rfl⟩ := List.exists_cons_of_ne_nil hw
    obtain ⟨hc, hchars⟩ := List.forall_mem_cons.mp hchars
    have hrun : (w ++ t).takeWhile isIdentChar = w := by
      rw [List.takeWhile_append_of_pos hchars]
      cases t with
      | nil => simp
      | cons d t => simp [hnext d rfl]
    have hlength : tokenLength c (w ++ t) = w.length + 1 := by
      rw [tokenLength, if_pos hc, hrun]
    rw [List.cons_append, tokensFrom, if_neg (by simp [isSpace_of_isIdentChar hc]), hlength]
    simp [ih]
  | @symbol c t ws hc _ ih =>
    obtain ⟨-, hspace, -⟩ := symbol_facts hc
    rw [tokensFrom, if_neg (by simp [hspace]), tokenLength_symbol hc]
    simp [ih]
  | @colons t ws _ ih =>
    have hcolons : Text.startsWith (':' :: ':' :: t) "::".toList = true :=
      Text.startsWith_iff.mpr ⟨t, rfl⟩
    have hlength : tokenLength ':' (':' :: t) = 2 := by
      rw [tokenLength, if_neg (by decide), if_pos hcolons]
    show (tokensFrom offset (':' :: ':' :: t)).map (·.text) = _
    rw [tokensFrom, if_neg (by decide), hlength]
    simp [ih]
  | @dots t ws _ ih =>
    have hcolons : ¬ Text.startsWith ('.' :: '.' :: '.' :: t) "::".toList = true := by
      simp [Text.startsWith, Text.after?]
    have hdots : Text.startsWith ('.' :: '.' :: '.' :: t) "...".toList = true :=
      Text.startsWith_iff.mpr ⟨t, rfl⟩
    have hlength : tokenLength '.' ('.' :: '.' :: t) = 3 := by
      rw [tokenLength, if_neg (by decide), if_neg hcolons, if_pos hdots]
    show (tokensFrom offset ('.' :: '.' :: '.' :: t)).map (·.text) = _
    rw [tokensFrom, if_neg (by decide), hlength]
    simp [ih]

namespace Lexes

theorem nil_iff : Lexes [] ws ↔ ws = [] := by
  constructor
  · intro h
    generalize ht : ([] : Text) = t at h
    cases h with
    | nil => rfl
    | space _ _ => cases ht
    | word hw _ _ _ => exact absurd (List.append_eq_nil_iff.mp ht.symm).1 hw
    | symbol _ _ => cases ht
    | colons _ => cases ht
    | dots _ => cases ht
  · rintro rfl
    exact .nil

/-- Two texts fall into the tokens of both where no word runs on from one into the other. -/
theorem append (hx : Lexes x ws) (hy : Lexes y vs)
    (hapart : ∀ c d, x.getLast? = some c → y.head? = some d →
      isIdentChar c = true → isIdentChar d = false) : Lexes (x ++ y) (ws ++ vs) := by
  induction hx with
  | nil => exact hy
  | @space c t ws hc _ ih =>
    refine .space hc (ih fun d e hd => hapart d e ?_)
    rw [List.getLast?_cons, hd]
    rfl
  | @word w t ws hw hchars hnext _ ih =>
    rw [List.append_assoc]
    refine .word hw hchars (fun d hd => ?_) (ih fun d e hd => hapart d e ?_)
    · cases t with
      | nil =>
        obtain ⟨c, hc⟩ : ∃ c, w.getLast? = some c := by
          cases hlast : w.getLast? with
          | none => exact absurd (List.getLast?_eq_none_iff.mp hlast) hw
          | some c => exact ⟨c, rfl⟩
        have hident := hchars c (List.mem_of_getLast? hc)
        exact hapart c d (by simpa using hc) hd hident
      | cons c t => exact hnext d hd
    · rw [List.getLast?_append, hd]
      rfl
  | @symbol c t ws hc _ ih =>
    refine .symbol hc (ih fun d e hd => hapart d e ?_)
    rw [List.getLast?_cons, hd]
    rfl
  | @colons t ws _ ih =>
    rw [List.append_assoc]
    refine .colons (ih fun d e hd => hapart d e ?_)
    rw [List.getLast?_append, hd]
    rfl
  | @dots t ws _ ih =>
    rw [List.append_assoc]
    refine .dots (ih fun d e hd => hapart d e ?_)
    rw [List.getLast?_append, hd]
    rfl

theorem append_of_head (hx : Lexes x ws) (hy : Lexes y vs)
    (hhead : ∀ d, y.head? = some d → isIdentChar d = false) : Lexes (x ++ y) (ws ++ vs) :=
  hx.append hy fun _ d _ hd _ => hhead d hd

/-- Tokens in brackets. -/
theorem between {o c : Char} (h : Lexes t ws) (ho : o ∈ "*&<>()[],".toList)
    (hc : c ∈ "*&<>()[],".toList) : Lexes (o :: t ++ [c]) ([o] :: ws ++ [[c]]) := by
  refine .symbol ho (h.append_of_head (.symbol hc .nil) fun d hd => ?_)
  cases hd
  exact (symbol_facts hc).1

/-- Blanks at the end are between no tokens. -/
theorem trimEnd (h : Lexes t ws) : Lexes (Text.trimEnd t) ws := by
  induction h with
  | nil => exact .nil
  | @space c t ws hc _ ih =>
    rw [Text.trimEnd]
    cases hrest : Text.trimEnd t with
    | nil =>
      rw [hrest] at ih
      rw [nil_iff.mp ih]
      simp only [isBlank_of_isSpace hc, if_true]
      exact .nil
    | cons d rest =>
      rw [hrest] at ih
      exact .space hc ih
  | @word w t ws hw hchars hnext _ ih =>
    have hblank : w.any isBlank = false := List.any_eq_false.mpr fun c hc => by
      simp [isBlank_of_isIdentChar (hchars c hc)]
    rw [Text.trimEnd_append hblank]
    exact .word hw hchars (fun c hc => hnext c (Text.head?_of_trimEnd hc)) ih
  | @symbol c t ws hc _ ih =>
    have hblank : [c].any isBlank = false := by
      simp [(symbol_facts hc).2.2.1]
    rw [← List.singleton_append, Text.trimEnd_append hblank]
    exact .symbol hc ih
  | @colons t ws _ ih =>
    rw [Text.trimEnd_append (by decide)]
    exact .colons ih
  | @dots t ws _ ih =>
    rw [Text.trimEnd_append (by decide)]
    exact .dots ih

end Lexes

end Declaration

end BindingTypes
