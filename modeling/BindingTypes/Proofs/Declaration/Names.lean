import BindingTypes.Proofs.Declaration.Suffixes

namespace BindingTypes.Declaration

/-- The tokens of one template argument. The declaration there may fail, as a number is none. -/
structure ReadsArgument (source : Text) (ws : List Text) (t : CType) : Prop where
  reads : ∀ ts R, Spells ts ws → nextIs [','] R = true ∨ nextIs ['>'] R = true →
    ∀ n, 8 * ws.length + 4 ≤ n → declaration source n (ts ++ R) = .ok (t, R) ∨
      (∃ f, declaration source n (ts ++ R) = .error f) ∧ rawArgument source (ts ++ R) = .ok (t, R)
  starts : ∃ w vs, ws = w :: vs ∧ w ≠ ['>']

variable {source d n : Text} {ws : List Text} {wss : List (List Text)} {ts S T R : List Token}
  {t : CType} {types texts : List CType} {k : Nat}

theorem closes_of_next (h : nextIs [','] R = true ∨ nextIs ['>'] R = true) : Closes R := by
  intro token htoken
  cases R with
  | nil => cases htoken
  | cons token' rest =>
    cases htoken
    rcases h with h | h
    · exact Or.inl (of_decide_eq_true h)
    · exact Or.inr (Or.inl (of_decide_eq_true h))

theorem ReadsDeclaration.argument (h : ReadsDeclaration source ws t) :
    ReadsArgument source ws t where
  reads ts R hts hR n hn := Or.inl (h.reads ts R hts (closes_of_next hR) n hn)
  starts := by
    obtain ⟨w, vs, hws, -, hw⟩ := h.starts
    exact ⟨w, vs, hws, hw⟩

/-- A number starts no declaration. -/
theorem declaration_number {offset : Nat} (hname : startsName d = false) (hd : d.all isIdentChar = true)
    (hne : d ≠ []) (m : Nat) (R : List Token) :
    ∃ f, declaration source m (⟨d, offset⟩ :: R) = .error f := by
  have hother : ∀ w, isWord w = false → d ≠ w := fun w hw => ne_of_chars hd hne hw
  have hdots : nextIs "...".toList (⟨d, offset⟩ :: R) = false :=
    decide_eq_false (hother _ (by decide))
  have hcolons : decide (d = "::".toList) = false := decide_eq_false (hother _ (by decide))
  obtain ⟨hqualifier, hbuiltin, htag⟩ := notKeyword_of_not_name hname
  cases m with
  | zero => exact ⟨_, rfl⟩
  | succ m =>
    rw [declaration, hdots]
    cases m with
    | zero => exact ⟨_, rfl⟩
    | succ m =>
      refine ⟨.missingBase source, ?_⟩
      rw [specifiers]
      simp only [hqualifier, hbuiltin, htag, hname, hcolons]
      rfl

theorem readsArgument_number (hname : startsName d = false) (hd : d.all isIdentChar = true)
    (hne : d ≠ []) : ReadsArgument source [d] d where
  reads ts R hts hR m hm := by
    have hraw : rawArgument source (ts ++ R) = .ok (d, R) := by
      cases R with
      | nil => rcases hR with h | h <;> cases h
      | cons token rest =>
        have hstop : [[','], ['>']].contains token.text = true := by
          rcases hR with h | h
          · rw [show token.text = [','] from of_decide_eq_true h]
            decide
          · rw [show token.text = ['>'] from of_decide_eq_true h]
            decide
        have hwords : Spells ts (dimensionWords d) := by
          rwa [dimensionWords, if_neg hne]
        have huntil : rawUntil source [[','], ['>']] 0 false (ts ++ token :: rest) =
            .ok (d, token :: rest) := rawUntil_word hd (by decide) hstop hwords
        have hless : d.count '<' = 0 := by
          refine List.count_eq_zero.mpr fun hmem => ?_
          have hchar := List.all_eq_true.mp hd '<' hmem
          cases hchar
        have hgood : isBadArgument d = false := by
          rw [isBadArgument, hless]
          simp [hne]
        rw [rawArgument, huntil]
        show (if isBadArgument d = true then _ else _ : Except DeclarationError (Text × List Token)) = _
        rw [hgood]
        rfl
    obtain ⟨offset, ts', rfl, hts'⟩ := hts.cons
    rw [hts'.nil] at hraw ⊢
    exact Or.inr ⟨declaration_number hname hd hne m R, hraw⟩
  starts := ⟨d, [], rfl, ne_of_chars hd hne (by decide)⟩

theorem argumentList_reads (has : List.Forall₂ (ReadsArgument source) wss types)
    (hne : wss ≠ []) (hts : Spells ts (listWords wss ++ [['>']])) (S : List Token)
    (hn : 8 * ts.length ≤ k) : argumentList source k (ts ++ S) = .ok (types, S) := by
  induction has generalizing ts k with
  | nil => exact absurd rfl hne
  | @cons ws t wss types ha has ih =>
    obtain ⟨ts₁, w, offset, ts₂, rfl, h₁, hcase⟩ := hts.listed
    have hlength := h₁.length
    simp only [List.length_append, List.length_cons] at hn
    obtain ⟨k, rfl⟩ : ∃ j, k = j + 1 := ⟨k - 1, by omega⟩
    rw [List.append_assoc, List.cons_append, argumentList]
    rcases hcase with ⟨rfl, rfl, rfl⟩ | ⟨hlast, rfl, h₂⟩
    · cases has
      have hstop : nextIs ['>'] (⟨['>'], offset⟩ :: S) = true := by simp [nextIs]
      rcases ha.reads ts₁ _ h₁ (Or.inr hstop) k (by omega) with hread | ⟨⟨f, hfail⟩, hraw⟩
      · simp [hread, bind, Except.bind, pure, Except.pure, nextIs]
      · simp [hfail, hraw, bind, Except.bind, pure, Except.pure]
    · have hstop : nextIs [','] (⟨[','], offset⟩ :: (ts₂ ++ S)) = true := by simp [nextIs]
      have hrest := ih hlast h₂ (k := k) (by omega)
      rcases ha.reads ts₁ _ h₁ (Or.inl hstop) k (by omega) with hread | ⟨⟨f, hfail⟩, hraw⟩
      · simp [hread, hrest, bind, Except.bind, pure, Except.pure, nextIs]
      · simp [hfail, hraw, hrest, bind, Except.bind, pure, Except.pure]

theorem templateArguments_reads (has : List.Forall₂ (ReadsArgument source) wss types)
    (hts : Spells ts (listWords wss ++ [['>']])) (S : List Token) (hn : 8 * ts.length + 1 ≤ k) :
    templateArguments source k (ts ++ S) = .ok (types, S) := by
  obtain ⟨k, rfl⟩ : ∃ j, k = j + 1 := ⟨k - 1, by omega⟩
  rw [templateArguments]
  cases has with
  | nil =>
    obtain ⟨offset, ts', rfl, hts'⟩ := hts.cons
    rw [hts'.nil]
    simp [nextIs]
  | @cons ws t wss types ha has =>
    have hlist := argumentList_reads (.cons ha has) (by simp) hts S (k := k) (by omega)
    obtain ⟨ts₁, w, offset, ts₂, rfl, h₁, -⟩ := hts.listed
    obtain ⟨w', vs, rfl, hw⟩ := ha.starts
    obtain ⟨offset', ts₃, rfl, -⟩ := h₁.cons
    have hnext : nextIs ['>'] (⟨w', offset'⟩ :: ts₃ ++ ⟨w, offset⟩ :: ts₂ ++ S) = false :=
      decide_eq_false hw
    rw [hnext]
    simp only [Bool.false_eq_true, if_false, hlist]

/-- The tokens of one component of a name. -/
inductive ReadsComponent (source : Text) : List Text → Text → Prop
  | plain {n : Text} (hn : IsFreeName n) : ReadsComponent source [n] n
  | template {n : Text} {wss : List (List Text)} {types : List CType} (hn : IsFreeName n)
      (has : List.Forall₂ (ReadsArgument source) wss types) :
      ReadsComponent source (n :: ['<'] :: (listWords wss ++ [['>']])) (n ++ CType.angled types)

/-- The tokens of a name with its scopes. -/
def nameWords (wss : List (List Text)) : List Text := List.intercalate ["::".toList] wss

theorem nameWords_cons (ws : List Text) (hne : wss ≠ []) :
    nameWords (ws :: wss) = ws ++ "::".toList :: nameWords wss := by
  obtain ⟨vs, wss, rfl⟩ := List.exists_cons_of_ne_nil hne
  simp [nameWords]

theorem Spells.firstComponent (h : Spells ts (nameWords ((n :: ws) :: wss))) :
    ∃ offset ts', ts = ⟨n, offset⟩ :: ts' ∧
      Spells ts' (if wss = [] then ws else ws ++ "::".toList :: nameWords wss) := by
  by_cases hne : wss = []
  · subst hne
    obtain ⟨offset, ts', rfl, h'⟩ := h.cons
    exact ⟨offset, ts', rfl, by simpa using h'⟩
  · rw [nameWords_cons _ hne] at h
    obtain ⟨offset, ts', rfl, h'⟩ := h.cons
    exact ⟨offset, ts', rfl, by simpa [hne] using h'⟩

theorem pathText_cons (n : Text) {ns : List Text} (hne : ns ≠ []) :
    pathText (n :: ns) = n ++ "::".toList ++ pathText ns := by
  obtain ⟨m, ns, rfl⟩ := List.exists_cons_of_ne_nil hne
  simp [pathText]

namespace ReadsComponent

theorem starts (h : ReadsComponent source ws t) : ∃ n vs, ws = n :: vs ∧ IsFreeName n := by
  cases h with
  | plain hn => exact ⟨_, [], rfl, hn⟩
  | template hn has => exact ⟨_, _, rfl, hn⟩

/-- A component is read up to what follows it, which is read as the rest of the name. -/
theorem reads (h : ReadsComponent source ws t) (hts : Spells ts ws) (hT : nextIs ['<'] T = false)
    (hk : 8 * ws.length ≤ k) :
    nameComponents source (k + 1) (ts ++ T) =
      if nextIs "::".toList T && nextStartsName (T.drop 1) then
        (nameComponents source k (T.drop 1)).map fun r => (t ++ "::".toList ++ r.1, r.2)
      else .ok (t, T) := by
  cases h with
  | plain hn =>
    obtain ⟨offset, ts', rfl, hts'⟩ := hts.cons
    rw [hts'.nil, List.cons_append, List.nil_append, nameComponents]
    simp only [hn.1, hT, Bool.not_true, Bool.false_eq_true, if_false]
    rfl
  | @template n wss types hn has =>
    obtain ⟨offset, ts₁, rfl, h₁⟩ := hts.cons
    obtain ⟨offset', ts₂, rfl, h₂⟩ := h₁.cons
    have hlength := h₂.length
    simp only [List.length_cons] at hk
    have hread := templateArguments_reads has h₂ T (k := k) (by omega)
    have hangle : nextIs ['<'] (⟨['<'], offset'⟩ :: (ts₂ ++ T)) = true := by simp [nextIs]
    rw [List.cons_append, List.cons_append, nameComponents]
    simp only [hn.1, hangle, Bool.not_true, Bool.false_eq_true, if_false, if_true, List.drop_one,
      List.tail_cons, hread, bind, Except.bind, pure, Except.pure]

end ReadsComponent

/-- The components of a name, one after the other. -/
theorem nameComponents_reads (hcs : List.Forall₂ (ReadsComponent source) wss texts) (hne : wss ≠ [])
    (hts : Spells ts (nameWords wss)) (hT : nextIs ['<'] T = false ∧ nextIs "::".toList T = false)
    (hk : 8 * ts.length + 1 ≤ k) :
    nameComponents source k (ts ++ T) = .ok (pathText texts, T) := by
  induction hcs generalizing ts k with
  | nil => exact absurd rfl hne
  | @cons ws text wss texts hc hcs ih =>
    obtain ⟨k, rfl⟩ : ∃ j, k = j + 1 := ⟨k - 1, by omega⟩
    by_cases hlast : wss = []
    · subst hlast
      cases hcs
      have h₁ : Spells ts ws := by simpa [nameWords] using hts
      have hlength := h₁.length
      rw [hc.reads h₁ hT.1 (by omega), hT.2]
      simp [pathText]
    · rw [nameWords_cons ws hlast] at hts
      obtain ⟨ts₁, ts₂, rfl, h₁, h₂⟩ := hts.append
      obtain ⟨offset, ts₃, rfl, h₃⟩ := h₂.cons
      have hlength := h₁.length
      simp only [List.length_append, List.length_cons] at hk
      have hrest := ih hlast h₃ (k := k) (by omega)
      have hangle : nextIs ['<'] (⟨"::".toList, offset⟩ :: (ts₃ ++ T)) = false := by
        simp [nextIs]
      have hcolons : nextIs "::".toList (⟨"::".toList, offset⟩ :: (ts₃ ++ T)) = true := by
        simp [nextIs]
      have hname : nextStartsName (ts₃ ++ T) = true := by
        cases hcs with
        | nil => exact absurd rfl hlast
        | @cons ws' text' wss' texts' hc' hcs' =>
          obtain ⟨n, vs, rfl, hn⟩ := hc'.starts
          obtain ⟨offset', ts₄, rfl, -⟩ := h₃.firstComponent
          exact hn.1
      have htexts : texts ≠ [] := by
        rintro rfl
        cases hcs
        exact hlast rfl
      rw [List.append_assoc, List.cons_append, hc.reads h₁ hangle (by omega), hcolons]
      simp only [List.drop_one, List.tail_cons, hname, Bool.and_true, if_true, hrest]
      simp [Except.map, pathText_cons text htexts]

/-- A name is no class of a member-pointer operator unless that follows at once. -/
theorem memberPath_name (hcs : List.Forall₂ (ReadsComponent source) wss texts) (hne : wss ≠ [])
    (hts : Spells ts (nameWords wss)) (hT : nextIs "::".toList T = false) :
    memberPath (ts ++ T) = none := by
  induction hcs generalizing ts with
  | nil => exact absurd rfl hne
  | @cons ws text wss texts hc hcs ih =>
    cases hc with
    | plain hn =>
      obtain ⟨offset, ts₁, rfl, h₁⟩ := hts.firstComponent
      by_cases hlast : wss = []
      · rw [if_pos hlast] at h₁
        rw [h₁.nil]
        exact memberPath_of_not_colons hT
      · rw [if_neg hlast] at h₁
        obtain ⟨offset', ts₂, rfl, h₂⟩ := h₁.cons
        have hrest := ih hlast h₂
        cases hcs with
        | nil => exact absurd rfl hlast
        | @cons ws' text' wss' texts' hc' hcs' =>
          obtain ⟨m, vs, rfl, hm⟩ := hc'.starts
          obtain ⟨offset'', ts₃, rfl, -⟩ := h₂.firstComponent
          rw [List.cons_append] at hrest
          show memberPath (⟨text, offset⟩ :: ⟨"::".toList, offset'⟩ :: ⟨m, offset''⟩ :: (ts₃ ++ T)) = _
          simp [memberPath, hm.ne (w := ['*']) (by decide), hrest]
    | @template n vss types hn has =>
      obtain ⟨offset, ts₁, rfl, h₁⟩ := hts.firstComponent
      have hangle : nextIs "::".toList (ts₁ ++ T) = false := by
        obtain ⟨offset', ts₂, rfl⟩ : ∃ offset' ts₂, ts₁ = ⟨['<'], offset'⟩ :: ts₂ := by
          split at h₁
          · obtain ⟨offset', ts₂, h₂, -⟩ := h₁.cons
            exact ⟨offset', ts₂, h₂⟩
          · obtain ⟨offset', ts₂, h₂, -⟩ := h₁.cons
            exact ⟨offset', ts₂, h₂⟩
        simp [nextIs]
      exact memberPath_of_not_colons hangle

end BindingTypes.Declaration
