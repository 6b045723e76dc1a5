import BindingTypes.Proofs.Declaration.Declarators
import Mathlib.Data.List.Forall2

namespace BindingTypes.Declaration

/-- The tokens of a whole declaration. -/
structure ReadsDeclaration (source : Text) (ws : List Text) (t : CType) : Prop where
  reads : ∀ ts R, Spells ts ws → Closes R → ∀ n, 8 * ws.length + 4 ≤ n →
    declaration source n (ts ++ R) = .ok (t, R)
  noOperator : ∀ ts R, Spells ts ws → Closes R → nextIs ['*'] (ts ++ R) = false ∧
    nextIs ['&'] (ts ++ R) = false ∧ memberPointer? (ts ++ R) = none
  starts : ∃ w vs, ws = w :: vs ∧ w ≠ [')'] ∧ w ≠ ['>']

/-- Tokens in order with commas between. -/
def listWords (wss : List (List Text)) : List Text := List.intercalate [[',']] wss

/-- The tokens of an array dimension, if there is one. -/
def dimensionWords (d : Text) : List Text := if d = [] then [] else [d]

variable {source w d : Text} {ws : List Text} {wss : List (List Text)} {types : List CType}
  {ts S R : List Token} {t c : CType} {offset n k : Nat}

theorem listWords_cons (ws : List Text) (hne : wss ≠ []) :
    listWords (ws :: wss) = ws ++ [','] :: listWords wss := by
  obtain ⟨vs, wss, rfl⟩ := List.exists_cons_of_ne_nil hne
  simp [listWords]

/-- The first of the listed declarations, and what follows it. -/
theorem Spells.listed {close : Text} (hts : Spells ts (listWords (ws :: wss) ++ [close])) :
    ∃ ts₁ w offset ts₂, ts = ts₁ ++ ⟨w, offset⟩ :: ts₂ ∧ Spells ts₁ ws ∧
      (wss = [] ∧ w = close ∧ ts₂ = [] ∨
        wss ≠ [] ∧ w = [','] ∧ Spells ts₂ (listWords wss ++ [close])) := by
  by_cases hlast : wss = []
  · subst hlast
    obtain ⟨ts₁, ts₂, rfl, h₁, h₂⟩ := hts.append
    have h₁ : Spells ts₁ ws := by simpa [listWords] using h₁
    obtain ⟨offset, ts₃, rfl, h₃⟩ := h₂.cons
    exact ⟨ts₁, close, offset, ts₃, rfl, h₁, Or.inl ⟨rfl, rfl, h₃.nil⟩⟩
  · rw [listWords_cons ws hlast, List.append_assoc] at hts
    obtain ⟨ts₁, ts₂, rfl, h₁, h₂⟩ := hts.append
    obtain ⟨offset, ts₃, rfl, h₃⟩ := h₂.cons
    exact ⟨ts₁, [','], offset, ts₃, rfl, h₁, Or.inr ⟨hlast, rfl, h₃⟩⟩

theorem ne_of_chars (h : d.all isIdentChar = true) (hne : d ≠ []) (hw : isWord w = false) :
    d ≠ w := by
  rintro rfl
  obtain ⟨c, d, rfl⟩ := List.exists_cons_of_ne_nil hne
  have hc := List.all_eq_true.mp h c List.mem_cons_self
  rw [isWord] at hw
  simp [hc] at hw

/-- The raw text before a stop is the word there. -/
theorem rawUntil_word {stops : List Text} (hd : d.all isIdentChar = true)
    (hstops : stops.any isWord = false) (hw : stops.contains w = true)
    (hts : Spells ts (dimensionWords d)) :
    rawUntil source stops 0 false (ts ++ ⟨w, offset⟩ :: S) = .ok (d, ⟨w, offset⟩ :: S) := by
  have hstop : ∀ b, rawUntil source stops 0 b (⟨w, offset⟩ :: S) =
      .ok ([], ⟨w, offset⟩ :: S) := by
    intro b
    rw [rawUntil, if_pos ⟨rfl, hw⟩]
  by_cases hne : d = []
  · subst hne
    rw [hts.nil]
    exact hstop false
  · rw [dimensionWords, if_neg hne] at hts
    obtain ⟨offset', ts', rfl, hts'⟩ := hts.cons
    have hother : ∀ w, isWord w = false → d ≠ w := fun w hw => ne_of_chars hd hne hw
    have hnotStop : ¬ (0 = 0 ∧ stops.contains d = true) := by
      rintro ⟨-, hmem⟩
      have hword := List.any_eq_false.mp hstops d (List.contains_iff_mem.mp hmem)
      exact hother d (Bool.not_eq_true _ ▸ hword) rfl
    have hopens : (decide (d = ['(']) || decide (d = ['['])) = false := by
      simp [hother ['('] (by decide), hother ['['] (by decide)]
    have hcloses : (decide (d = [')']) || decide (d = [']'])) = false := by
      simp [hother [')'] (by decide), hother [']'] (by decide)]
    rw [hts'.nil, List.cons_append, List.nil_append, rawUntil, if_neg hnotStop]
    simp only [hopens, hcloses, Bool.false_and, Bool.false_eq_true, if_false, hstop]
    simp [Except.map]

theorem readsSuffix_array (hd : d.all isIdentChar = true) :
    ReadsSuffix source (['['] :: dimensionWords d ++ [[']']]) (CType.written 'a' d) where
  tail ts S hts := by
    obtain ⟨offset, ts', rfl, -⟩ := hts.cons
    exact tail_cons (by decide) rfl
  reads ts S c R k hts hS hsuffixes n hn := by
    obtain ⟨offset, ts', rfl, hts'⟩ := hts.cons
    obtain ⟨ts₁, ts₂, rfl, h₁, h₂⟩ := hts'.append
    obtain ⟨offset', ts₃, rfl, h₃⟩ := h₂.cons
    simp only [List.length_cons, List.length_append] at hn
    obtain ⟨n, rfl⟩ : ∃ j, n = j + 1 := ⟨n - 1, by omega⟩
    have hraw : rawUntil source [[']']] 0 false (ts₁ ++ ⟨[']'], offset'⟩ :: S) =
        .ok (d, ⟨[']'], offset'⟩ :: S) := rawUntil_word hd (by decide) (by decide) h₁
    have hexpect : expect source [']'] (⟨[']'], offset'⟩ :: S) = .ok S := by
      rw [expect, if_pos rfl]
    have hrest := hsuffixes n (by omega)
    have htokens : ⟨['['], offset⟩ :: (ts₁ ++ ⟨[']'], offset'⟩ :: ts₃) ++ S =
        ⟨['['], offset⟩ :: (ts₁ ++ ⟨[']'], offset'⟩ :: S) := by
      rw [h₃.nil]
      simp
    have hnext : nextIs ['['] (⟨['['], offset⟩ :: (ts₁ ++ ⟨[']'], offset'⟩ :: S)) = true := by
      simp [nextIs]
    rw [htokens, declaratorSuffixes, hnext]
    simp only [if_true, List.drop_one, List.tail_cons, bind, Except.bind, pure, Except.pure, hraw,
      hexpect, hrest]

theorem parameterList_reads (hps : List.Forall₂ (ReadsDeclaration source) wss types)
    (hne : wss ≠ []) (hts : Spells ts (listWords wss ++ [[')']])) (S : List Token)
    (hn : 8 * ts.length ≤ n) : parameterList source n (ts ++ S) = .ok (types, S) := by
  induction hps generalizing ts n with
  | nil => exact absurd rfl hne
  | @cons ws t wss types hp hps ih =>
    obtain ⟨ts₁, w, offset, ts₂, rfl, h₁, hcase⟩ := hts.listed
    have hlength := h₁.length
    simp only [List.length_append, List.length_cons] at hn
    obtain ⟨n, rfl⟩ : ∃ j, n = j + 1 := ⟨n - 1, by omega⟩
    rw [List.append_assoc, List.cons_append, parameterList]
    rcases hcase with ⟨rfl, rfl, rfl⟩ | ⟨hlast, rfl, h₂⟩
    · cases hps
      have hclose : Closes (⟨[')'], offset⟩ :: S) := closes_cons (Or.inr (Or.inr rfl))
      have hread := hp.reads ts₁ _ h₁ hclose n (by omega)
      simp [hread, bind, Except.bind, pure, Except.pure, nextIs]
    · have hclose : Closes (⟨[','], offset⟩ :: (ts₂ ++ S)) := closes_cons (Or.inl rfl)
      have hread := hp.reads ts₁ _ h₁ hclose n (by omega)
      have hrest := ih hlast h₂ (n := n) (by omega)
      simp [hread, hrest, bind, Except.bind, pure, Except.pure, nextIs]

/-- No list of parameters starts as a declarator in brackets does. -/
theorem listed_noOperator (hps : List.Forall₂ (ReadsDeclaration source) wss types)
    (hts : Spells ts (listWords wss ++ [[')']])) (S : List Token) :
    nextIs ['*'] (ts ++ S) = false ∧ nextIs ['&'] (ts ++ S) = false ∧
      memberPointer? (ts ++ S) = none := by
  cases hps with
  | nil =>
    obtain ⟨offset, ts', rfl, -⟩ := hts.cons
    refine ⟨by simp [nextIs], by simp [nextIs], ?_⟩
    exact memberPointer?_of_not_name (by decide) (by decide)
  | cons hp hps =>
    obtain ⟨ts₁, w, offset, ts₂, rfl, h₁, hcase⟩ := hts.listed
    have hclose : Closes (⟨w, offset⟩ :: (ts₂ ++ S)) := by
      rcases hcase with ⟨-, hw, -⟩ | ⟨-, hw, -⟩
      · exact closes_cons (Or.inr (Or.inr hw))
      · exact closes_cons (Or.inl hw)
    rw [List.append_assoc, List.cons_append]
    exact hp.noOperator ts₁ _ h₁ hclose

theorem parameters_reads (hps : List.Forall₂ (ReadsDeclaration source) wss types)
    (hvoid : types ≠ ["void".toList]) (hts : Spells ts (listWords wss ++ [[')']])) (S : List Token)
    (hn : 8 * ts.length + 1 ≤ n) : parameters source n (ts ++ S) = .ok (types, S) := by
  obtain ⟨n, rfl⟩ : ∃ j, n = j + 1 := ⟨n - 1, by omega⟩
  rw [parameters]
  cases hps with
  | nil =>
    obtain ⟨offset, ts', rfl, hts'⟩ := hts.cons
    rw [hts'.nil]
    simp [nextIs]
  | @cons ws t wss types hp hps =>
    have hlist := parameterList_reads (.cons hp hps) (by simp) hts S (n := n) (by omega)
    obtain ⟨ts₁, w, offset, ts₂, rfl, h₁, -⟩ := hts.listed
    obtain ⟨w', vs, rfl, hw, -⟩ := hp.starts
    obtain ⟨offset', ts₃, rfl, -⟩ := h₁.cons
    have hnext : nextIs [')'] (⟨w', offset'⟩ :: ts₃ ++ ⟨w, offset⟩ :: ts₂ ++ S) = false :=
      decide_eq_false hw
    rw [hnext]
    simp only [Bool.false_eq_true, if_false, hlist, bind, Except.bind, pure, Except.pure,
      if_neg hvoid]

theorem readsSuffix_function (hps : List.Forall₂ (ReadsDeclaration source) wss types)
    (hvoid : types ≠ ["void".toList]) :
    ReadsSuffix source (['('] :: (listWords wss ++ [[')']]))
      (CType.written 'f' (Text.commaJoin types)) where
  tail ts S hts := by
    obtain ⟨offset, ts', rfl, hts'⟩ := hts.cons
    obtain ⟨hstar, hamp, hmember⟩ := listed_noOperator hps hts' S
    refine tail_cons (by decide) ?_
    simp [opensGroup, hstar, hamp, hmember]
  reads ts S c R k hts hS hsuffixes n hn := by
    obtain ⟨offset, ts', rfl, hts'⟩ := hts.cons
    have hlength := hts'.length
    simp only [List.length_cons] at hn
    obtain ⟨n, rfl⟩ : ∃ j, n = j + 1 := ⟨n - 1, by omega⟩
    have hlist := parameters_reads hps hvoid hts' S (n := n) (by omega)
    have hrest := hsuffixes n (by omega)
    have hnext : nextIs ['['] (⟨['('], offset⟩ :: (ts' ++ S)) = false ∧
        nextIs ['('] (⟨['('], offset⟩ :: (ts' ++ S)) = true := by simp [nextIs]
    rw [List.cons_append, declaratorSuffixes, hnext.1, hnext.2]
    simp [hlist, hS.noQualifier, hrest, bind, Except.bind, pure, Except.pure]

end BindingTypes.Declaration
