import Mathlib.Data.List.TakeWhile
import BindingTypes.Proofs.CType.Balance
import BindingTypes.Proofs.Scope.Vocabulary

namespace BindingTypes

namespace Text

variable {c : Char} {f g : Text → Text} {k m : Nat} {r t u v w word n rep : Text}

/-- What becomes of a word; between two breaks there is none. -/
def mapWord (f : Text → Text) (word : Text) : Text := if word = [] then [] else f word

/-- The words behind `word`, which the text begins with the rest of. -/
def mapWordsFrom (f : Text → Text) : (word : Text) → Text → Text
  | word, [] => mapWord f word
  | word, c :: cs =>
    if isIdentChar c then mapWordsFrom f (word ++ [c]) cs
    else mapWord f word ++ c :: mapWordsFrom f [] cs

/-- Every word, a longest run of identifier characters, becomes another text. -/
def mapWords (f : Text → Text) (t : Text) : Text := mapWordsFrom f [] t

def wordsFrom : (word : Text) → Text → List Text
  | word, [] => [word]
  | word, c :: cs => if isIdentChar c then wordsFrom (word ++ [c]) cs else word :: wordsFrom [] cs

/-- The words of a text. -/
def words (t : Text) : List Text := wordsFrom [] t

theorem mapWordsFrom_break (hc : isIdentChar c = false) (word u v : Text) :
    mapWordsFrom f word (u ++ c :: v) = mapWordsFrom f word u ++ c :: mapWords f v := by
  induction u generalizing word with
  | nil => simp [mapWordsFrom, mapWords, hc]
  | cons d u ih =>
    rw [List.cons_append]
    unfold mapWordsFrom
    split
    · exact ih _
    · rw [ih, List.append_assoc]
      rfl

/-- Words on both sides of a break have nothing to do with each other. -/
theorem mapWords_break (hc : isIdentChar c = false) (u v : Text) :
    mapWords f (u ++ c :: v) = mapWords f u ++ c :: mapWords f v := mapWordsFrom_break hc [] u v

theorem mapWordsFrom_word (hw : ∀ c ∈ w, isIdentChar c = true) :
    mapWordsFrom f word (w ++ u) = mapWordsFrom f (word ++ w) u := by
  induction w generalizing word with
  | nil => simp
  | cons c w ih =>
    obtain ⟨hc, hw⟩ := List.forall_mem_cons.mp hw
    rw [List.cons_append, mapWordsFrom, if_pos hc, ih hw]
    simp

theorem mapWords_word (hw : ∀ c ∈ w, isIdentChar c = true) : mapWords f w = mapWord f w := by
  have h : mapWordsFrom f [] (w ++ []) = mapWordsFrom f w [] := mapWordsFrom_word hw
  rwa [List.append_nil] at h

theorem mapWords_word_append (hw : ∀ c ∈ w, isIdentChar c = true)
    (hu : ∀ c ∈ u.head?, isIdentChar c = false) :
    mapWords f (w ++ u) = mapWord f w ++ mapWords f u := by
  cases u with
  | nil =>
    rw [List.append_nil, mapWords_word hw]
    exact (List.append_nil _).symm
  | cons c u =>
    have hfront : mapWords f (c :: u) = c :: mapWords f u := mapWords_break (hu c rfl) [] u
    rw [mapWords_break (hu c rfl), mapWords_word hw, hfront]

theorem mapWords_breaks_append (hr : ∀ c ∈ r, isIdentChar c = false) :
    mapWords f (r ++ u) = r ++ mapWords f u := by
  induction r with
  | nil => rfl
  | cons c r ih =>
    obtain ⟨hc, hr⟩ := List.forall_mem_cons.mp hr
    have hfront : mapWords f (c :: (r ++ u)) = c :: mapWords f (r ++ u) := mapWords_break hc [] _
    rw [List.cons_append, hfront, ih hr]
    rfl

theorem mapWordsFrom_congr (h : ∀ w ∈ wordsFrom word t, w ≠ [] → f w = g w) :
    mapWordsFrom f word t = mapWordsFrom g word t := by
  have hone : ∀ w, (w ≠ [] → f w = g w) → mapWord f w = mapWord g w := by
    intro w hw
    unfold mapWord
    split
    · rfl
    · exact hw ‹_›
  induction t generalizing word with
  | nil => exact hone word (h word List.mem_cons_self)
  | cons c t ih =>
    unfold wordsFrom at h
    unfold mapWordsFrom
    split
    · rw [if_pos ‹_›] at h
      exact ih h
    · rw [if_neg ‹_›] at h
      obtain ⟨hword, hrest⟩ := List.forall_mem_cons.mp h
      rw [hone word hword, ih hrest]

theorem mapWords_congr (h : ∀ w ∈ words t, w ≠ [] → f w = g w) : mapWords f t = mapWords g t :=
  mapWordsFrom_congr h

theorem mapWordsFrom_id (word t : Text) : mapWordsFrom id word t = word ++ t := by
  have hone : ∀ w, mapWord id w = w := by
    intro w
    unfold mapWord
    split
    · exact Eq.symm ‹_›
    · rfl
  induction t generalizing word with
  | nil => rw [mapWordsFrom, hone, List.append_nil]
  | cons c t ih =>
    unfold mapWordsFrom
    split
    · rw [ih, List.append_assoc]
      rfl
    · rw [ih, hone]
      rfl

theorem mapWords_id (t : Text) : mapWords id t = t := mapWordsFrom_id [] t

/-- Words that stay leave the text as it is. -/
theorem mapWords_eq_self (h : ∀ w ∈ words t, w ≠ [] → f w = w) : mapWords f t = t :=
  (mapWords_congr h).trans (mapWords_id t)

/-- The words of what a word became are words of the result. -/
theorem mapWords_mapWords (f g : Text → Text) (t : Text) :
    mapWords g (mapWords f t) = mapWords (fun w => mapWords g (f w)) t := by
  have hone : ∀ w, mapWords g (mapWord f w) = mapWord (fun w => mapWords g (f w)) w := by
    intro w
    unfold mapWord
    split <;> rfl
  have hfrom : ∀ word, mapWords g (mapWordsFrom f word t) =
      mapWordsFrom (fun w => mapWords g (f w)) word t := by
    induction t with
    | nil => exact hone
    | cons c t ih =>
      intro word
      unfold mapWordsFrom
      split
      · exact ih _
      · rw [mapWords_break (Bool.eq_false_iff.mpr ‹_›), hone, ih]
  exact hfrom []

theorem infix_of_mem_wordsFrom (h : w ∈ wordsFrom word t) : w <:+: word ++ t := by
  induction t generalizing word with
  | nil =>
    rw [List.append_nil]
    exact List.mem_singleton.mp h ▸ List.infix_rfl
  | cons c t ih =>
    unfold wordsFrom at h
    split at h
    · have hrest := ih h
      rwa [List.append_assoc] at hrest
    · rcases List.mem_cons.mp h with rfl | h
      · exact (List.prefix_append w (c :: t)).isInfix
      · exact (ih h).trans ⟨word ++ [c], [], by simp⟩

theorem infix_of_mem_words (h : w ∈ words t) : w <:+: t := infix_of_mem_wordsFrom h

theorem isIdentChar_of_mem_words (h : w ∈ words t) : ∀ c ∈ w, isIdentChar c = true := by
  have hfrom : ∀ word, (∀ c ∈ word, isIdentChar c = true) → w ∈ wordsFrom word t →
      ∀ c ∈ w, isIdentChar c = true := by
    clear h
    induction t with
    | nil =>
      intro word hword h
      rwa [List.mem_singleton.mp h]
    | cons d t ih =>
      intro word hword h
      unfold wordsFrom at h
      split at h
      · refine ih _ (fun c hc => ?_) h
        rcases List.mem_append.mp hc with hc | hc
        · exact hword c hc
        · rwa [List.mem_singleton.mp hc]
      · rcases List.mem_cons.mp h with rfl | h
        · exact hword
        · exact ih [] (by simp) h
  exact hfrom [] (by simp) h

section Replace

variable (hn : IsIdentifier n)
include hn

theorem afterWhole?_break (hc : isIdentChar c = false) (u : Text) :
    afterWhole? (c :: u) n = none := by
  obtain ⟨d, ds, rfl⟩ := List.exists_cons_of_ne_nil hn.1
  have hd : c ≠ d := by
    rintro rfl
    rw [hn.2 c List.mem_cons_self] at hc
    cases hc
  simp [afterWhole?, after?, Ne.symm hd]

omit hn in
/-- A whole occurrence at the front is not followed by a letter. -/
theorem afterWhole?_eq_some_iff :
    afterWhole? t n = some u ↔ after? t n = some u ∧ ∀ c ∈ u.head?, isIdentChar c = false := by
  unfold afterWhole?
  cases after? t n with
  | none => simp
  | some r =>
    cases r with
    | nil =>
      constructor
      · rintro ⟨⟩
        exact ⟨rfl, nofun⟩
      · exact And.left
    | cons d r =>
      dsimp only
      constructor
      · intro h
        split at h
        · cases h
        · cases h
          exact ⟨rfl, fun c hc => by cases hc; exact Bool.eq_false_iff.mpr ‹_›⟩
      · rintro ⟨⟨⟩, hd⟩
        rw [if_neg (Bool.eq_false_iff.mp (hd d rfl))]

/-- Two words that are each followed by no letter are one, where the text is. -/
theorem word_eq_of_append_eq {r : Text} (hw : ∀ c ∈ w, isIdentChar c = true)
    (hu : ∀ c ∈ u.head?, isIdentChar c = false) (hr : ∀ c ∈ r.head?, isIdentChar c = false)
    (h : w ++ u = n ++ r) : w = n := by
  -- the shorter of the two would end where the longer goes on with a letter
  rcases List.append_eq_append_iff.mp h with ⟨x, hx, hux⟩ | ⟨x, hx, hrx⟩
  · cases x with
    | nil => rw [hx, List.append_nil]
    | cons d x =>
      have hd := hn.2 d (by rw [hx]; simp)
      rw [hu d (by rw [hux]; rfl)] at hd
      cases hd
  · cases x with
    | nil => rw [hx, List.append_nil]
    | cons d x =>
      have hd := hw d (by rw [hx]; simp)
      rw [hr d (by rw [hrx]; rfl)] at hd
      cases hd

/-- A name occurs at the front of a word where it is the word. -/
theorem afterWhole?_word (hw : ∀ c ∈ w, isIdentChar c = true)
    (hu : ∀ c ∈ u.head?, isIdentChar c = false) :
    afterWhole? (w ++ u) n = if w = n then some u else none := by
  split
  · subst w
    exact afterWhole?_eq_some_iff.mpr ⟨after?_eq_some_iff.mpr rfl, hu⟩
  · rename_i hne
    cases hr : afterWhole? (w ++ u) n with
    | none => rfl
    | some r =>
      obtain ⟨hafter, hbreak⟩ := afterWhole?_eq_some_iff.mp hr
      exact absurd (word_eq_of_append_eq hn hw hu hbreak (after?_eq_some_iff.mp hafter)) hne

theorem cutWhole?_break (hc : isIdentChar c = false) (glued : Bool) (u : Text) :
    cutWhole? n glued (c :: u) = (cutWhole? n false u).map fun r => (c :: r.1, r.2) := by
  rw [cutWhole?, afterWhole?_break hn hc, ite_self, hc]

theorem cutWhole?_breaks (hr : ∀ c ∈ r, isIdentChar c = false) (u : Text) :
    cutWhole? n false (r ++ u) = (cutWhole? n false u).map fun s => (r ++ s.1, s.2) := by
  induction r with
  | nil => simp
  | cons c r ih =>
    obtain ⟨hc, hr⟩ := List.forall_mem_cons.mp hr
    rw [List.cons_append, cutWhole?_break hn hc, ih hr, Option.map_map]
    rfl

/-- Behind a word it does not matter that there was one. -/
theorem cutWhole?_behind (hu : ∀ c ∈ u.head?, isIdentChar c = false) :
    cutWhole? n true u = cutWhole? n false u := by
  cases u with
  | nil => rfl
  | cons c u => rw [cutWhole?_break hn (hu c rfl), cutWhole?_break hn (hu c rfl)]

omit hn in
/-- Inside a word nothing is found. -/
theorem cutWhole?_inside (hw : ∀ c ∈ w, isIdentChar c = true) :
    cutWhole? n true (w ++ u) = (cutWhole? n true u).map fun r => (w ++ r.1, r.2) := by
  induction w with
  | nil => simp
  | cons c w ih =>
    obtain ⟨hc, hw⟩ := List.forall_mem_cons.mp hw
    rw [List.cons_append, cutWhole?, if_pos rfl, hc]
    simp only [ih hw, Option.map_map]
    rfl

/-- A word is found as a whole, or passed over. -/
theorem cutWhole?_word (hne : w ≠ []) (hw : ∀ c ∈ w, isIdentChar c = true)
    (hu : ∀ c ∈ u.head?, isIdentChar c = false) : cutWhole? n false (w ++ u) =
      if w = n then some ([], u) else (cutWhole? n false u).map fun r => (w ++ r.1, r.2) := by
  obtain ⟨c, ws, rfl⟩ := List.exists_cons_of_ne_nil hne
  obtain ⟨hc, hws⟩ := List.forall_mem_cons.mp hw
  have hafter := afterWhole?_word hn hw hu
  rw [List.cons_append] at hafter ⊢
  rw [cutWhole?, if_neg Bool.false_ne_true, hafter, hc]
  by_cases heq : c :: ws = n
  · rw [if_pos heq, if_pos heq]
  · rw [if_neg heq, if_neg heq, cutWhole?_inside hws, cutWhole?_behind hn hu]
    simp only [Option.map_map]
    rfl

theorem replaceWholeFrom_break (hc : isIdentChar c = false) (glued : Bool) (u : Text) :
    replaceWholeFrom n rep glued 0 (c :: u) = c :: replaceWholeFrom n rep false 0 u := by
  rw [replaceWholeFrom, afterWhole?_break hn hc, hc]
  simp

omit hn in
/-- Inside a word nothing is replaced. -/
theorem replaceWholeFrom_inside (hw : ∀ c ∈ w, isIdentChar c = true) :
    replaceWholeFrom n rep true 0 (w ++ u) = w ++ replaceWholeFrom n rep true 0 u ∧
      replaceWholeFrom n rep true w.length (w ++ u) = replaceWholeFrom n rep true 0 u := by
  induction w with
  | nil => exact ⟨rfl, rfl⟩
  | cons c w ih =>
    obtain ⟨hc, hw⟩ := List.forall_mem_cons.mp hw
    obtain ⟨hkept, hpassed⟩ := ih hw
    constructor
    · rw [List.cons_append, replaceWholeFrom, hc, hkept]
      rfl
    · rw [List.cons_append, List.length_cons, replaceWholeFrom, hc, hpassed]

/-- A word is replaced as a whole, or stays as it is. -/
theorem replaceWholeFrom_word (hne : w ≠ []) (hw : ∀ c ∈ w, isIdentChar c = true)
    (hu : ∀ c ∈ u.head?, isIdentChar c = false) :
    replaceWholeFrom n rep false 0 (w ++ u) =
      (if w = n then rep else w) ++ replaceWholeFrom n rep true 0 u := by
  obtain ⟨c, ws, rfl⟩ := List.exists_cons_of_ne_nil hne
  obtain ⟨hc, hws⟩ := List.forall_mem_cons.mp hw
  have hafter := afterWhole?_word hn hw hu
  have hinside : replaceWholeFrom n rep true 0 (ws ++ u) = ws ++ replaceWholeFrom n rep true 0 u ∧
      replaceWholeFrom n rep true ws.length (ws ++ u) = replaceWholeFrom n rep true 0 u :=
    replaceWholeFrom_inside hws
  obtain ⟨hkept, hpassed⟩ := hinside
  rw [List.cons_append] at hafter ⊢
  rw [replaceWholeFrom, hafter, hc]
  split
  · have hlength : n.length - 1 = ws.length := by rw [← ‹c :: ws = n›]; rfl
    rw [hlength, hpassed]
    rfl
  · rw [hkept]
    rfl

omit hn in
/-- A text begins with a word, which may be empty. -/
theorem exists_word (t : Text) : ∃ w u, t = w ++ u ∧ (∀ c ∈ w, isIdentChar c = true) ∧
    ∀ c ∈ u.head?, isIdentChar c = false := by
  refine ⟨_, _, (List.takeWhile_append_dropWhile (p := isIdentChar)).symm,
    fun c hc => List.mem_takeWhile_imp hc, fun c hc => ?_⟩
  have hnot := List.head?_dropWhile_not isIdentChar t
  rw [Option.mem_def.mp hc] at hnot
  simpa using hnot

/-- Whole occurrences of a name are the words that are that name. -/
theorem replaceWhole_eq_mapWords (t rep : Text) :
    t.replaceWhole n rep = t.mapWords fun w => if w = n then rep else w := by
  rw [replaceWhole, if_neg hn.1]
  -- a word at a time, with what parts it from the next one
  induction hk : t.length using Nat.strongRecOn generalizing t with
  | ind k ih =>
    obtain ⟨w, u, rfl, hw, hu⟩ := exists_word t
    have hfront : replaceWholeFrom n rep false 0 (w ++ u) =
        mapWord (fun w => if w = n then rep else w) w ++ replaceWholeFrom n rep (w ≠ []) 0 u := by
      by_cases hne : w = []
      · subst hne
        rfl
      · rw [replaceWholeFrom_word hn hne hw hu, mapWord, if_neg hne, decide_eq_true hne]
    rw [hfront]
    cases u with
    | nil => rw [List.append_nil, mapWords_word hw, replaceWholeFrom, List.append_nil]
    | cons c u =>
      have hc := hu c rfl
      have hlt : u.length < k := by
        rw [← hk, List.length_append, List.length_cons]
        omega
      rw [replaceWholeFrom_break hn hc, ih _ hlt u rfl, mapWords_break hc, mapWords_word hw]

end Replace

end Text

namespace CType

open Text

variable {f : Text → Text}

/-- Words hold no brackets, so a text whose words become balanced texts stays as balanced as it
is. `read` tells which characters count as brackets. -/
theorem parensAfter_mapWords (read : Char → Char)
    (hread : ∀ c, isIdentChar c = true → read c ≠ '(' ∧ read c ≠ ')')
    (hf : ∀ w, w ≠ [] → (∀ c ∈ w, isIdentChar c = true) → Balanced ((f w).map read)) (k : Nat)
    (t : Text) : parensAfter k ((mapWords f t).map read) = parensAfter k (t.map read) := by
  have hone : ∀ word, (∀ c ∈ word, isIdentChar c = true) →
      Balanced ((mapWord f word).map read) := by
    intro word hword
    unfold mapWord
    split
    · rfl
    · exact hf word ‹_› hword
  have hfrom : ∀ word, (∀ c ∈ word, isIdentChar c = true) →
      parensAfter k ((mapWordsFrom f word t).map read) = parensAfter k (t.map read) := by
    induction t generalizing k with
    | nil =>
      intro word hword
      rw [mapWordsFrom, (hone word hword).after]
      rfl
    | cons c t ih =>
      intro word hword
      unfold mapWordsFrom
      rw [List.map_cons, parensAfter_cons]
      split
      · rename_i hc
        obtain ⟨hopen, hclose⟩ := hread c hc
        rw [parensStep_other hopen hclose, ih]
        · rfl
        · intro d hd
          rcases List.mem_append.mp hd with hd | hd
          · exact hword d hd
          · cases List.mem_singleton.mp hd
            exact hc
      · rw [List.map_append, parensAfter_append, (hone word hword).after, List.map_cons,
          Option.bind_some, parensAfter_cons]
        refine Option.bind_congr fun m _ => ?_
        exact ih m [] (by simp)
  exact hfrom [] (by simp)

end CType

end BindingTypes
