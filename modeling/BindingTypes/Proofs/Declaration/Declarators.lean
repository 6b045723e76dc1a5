import BindingTypes.Proofs.Declaration.Pointers

namespace BindingTypes.Declaration

/-- What may follow the specifiers of a type. -/
def EndsSpecifiers (ts : List Token) : Prop :=
  ∀ token ∈ ts.head?, qualifierWords.contains token.text = false ∧
    builtinWords.contains token.text = false ∧ token.text ≠ ['<'] ∧ token.text ≠ "::".toList

/-- What may follow a declared name, or the place of one. -/
structure Tail (ts : List Token) : Prop where
  head : ∀ token ∈ ts.head?, startsName token.text = false ∧ token.text ≠ ['*'] ∧
    token.text ≠ ['&'] ∧ token.text ≠ ['<'] ∧ token.text ≠ "::".toList
  noGroup : opensGroup ts = false

/-- What may follow a declaration. -/
def Closes (ts : List Token) : Prop :=
  ∀ token ∈ ts.head?, token.text = [','] ∨ token.text = ['>'] ∨ token.text = [')']

variable {source w e : Text} {ws vs ows : List Text} {ts S R : List Token} {c : CType} {offset : Nat}

/-- No symbol but these goes on with specifiers. -/
theorem endsSpecifiers_cons (hname : startsName w = false) (hangle : w ≠ ['<'])
    (hcolons : w ≠ "::".toList) : EndsSpecifiers (⟨w, offset⟩ :: ts) := by
  obtain ⟨hqualifier, hbuiltin, -⟩ := notKeyword_of_not_name hname
  intro token htoken
  cases htoken
  exact ⟨hqualifier, hbuiltin, hangle, hcolons⟩

theorem IsFreeName.endsSpecifiers (h : IsFreeName w) : EndsSpecifiers (⟨w, offset⟩ :: ts) := by
  intro token htoken
  cases htoken
  obtain ⟨hqualifier, hbuiltin, -⟩ := h.notKeyword
  exact ⟨hqualifier, hbuiltin, h.ne (by decide), h.ne (by decide)⟩

namespace Tail

theorem noOperator (h : Tail ts) : NoOperator ts := by
  cases ts with
  | nil => exact noOperator_nil
  | cons token rest =>
    obtain ⟨hname, hstar, hamp, -, hcolons⟩ := h.head token rfl
    exact noOperator_cons hstar hamp (notKeyword_of_not_name hname).1
      (memberPointer?_of_not_name hname hcolons)

theorem endsSpecifiers (h : Tail ts) : EndsSpecifiers ts := by
  cases ts with
  | nil => exact fun token htoken => by cases htoken
  | cons token rest =>
    obtain ⟨hname, -, -, hangle, hcolons⟩ := h.head token rfl
    exact endsSpecifiers_cons hname hangle hcolons

theorem noColons (h : Tail ts) : nextIs "::".toList ts = false := by
  cases ts with
  | nil => rfl
  | cons token rest => exact decide_eq_false (h.head token rfl).2.2.2.2

theorem noQualifier (h : Tail ts) : trailingQualifiers ts = ([], ts) := by
  cases ts with
  | nil => rfl
  | cons token rest =>
    rw [trailingQualifiers, (notKeyword_of_not_name (h.head token rfl).1).1]
    rfl

end Tail

theorem tail_cons (hw : startsName w = false ∧ w ≠ ['*'] ∧ w ≠ ['&'] ∧ w ≠ ['<'] ∧ w ≠ "::".toList)
    (hgroup : opensGroup (⟨w, offset⟩ :: ts) = false) : Tail (⟨w, offset⟩ :: ts) where
  head token htoken := by
    cases htoken
    exact hw
  noGroup := hgroup

theorem Closes.tail (h : Closes ts) : Tail ts where
  head token htoken := by
    rcases h token htoken with hw | hw | hw <;> rw [hw] <;> decide
  noGroup := by
    cases ts with
    | nil => rfl
    | cons token rest =>
      have hopen : token.text ≠ ['('] := by
        rcases h token rfl with hw | hw | hw <;> rw [hw] <;> decide
      rw [opensGroup, decide_eq_false hopen]
      rfl

theorem closes_cons (h : w = [','] ∨ w = ['>'] ∨ w = [')']) : Closes (⟨w, offset⟩ :: ts) := by
  intro token htoken
  cases htoken
  exact h

theorem declaratorSuffixes_closes (h : Closes R) {n : Nat} (hn : 1 ≤ n) :
    declaratorSuffixes source n R = .ok ([], R) := by
  obtain ⟨n, rfl⟩ : ∃ j, n = j + 1 := ⟨n - 1, by omega⟩
  have hnext : nextIs ['['] R = false ∧ nextIs ['('] R = false := by
    cases R with
    | nil => exact ⟨rfl, rfl⟩
    | cons token rest =>
      rcases h token rfl with hw | hw | hw <;> simp [nextIs, hw]
  rw [declaratorSuffixes, hnext.1, hnext.2]
  rfl

/-- The tokens of one suffix, an array or a parameter list. -/
structure ReadsSuffix (source : Text) (ws : List Text) (e : Text) : Prop where
  tail : ∀ ts S, Spells ts ws → Tail (ts ++ S)
  reads : ∀ ts S c R k, Spells ts ws → Tail S →
    (∀ n, k ≤ n → declaratorSuffixes source n S = .ok (c, R)) →
    ∀ n, 8 * ws.length + k ≤ n → declaratorSuffixes source n (ts ++ S) = .ok (e ++ c, R)

/-- The tokens of a declarator that starts with no operator: a suffix behind it is its own. -/
structure Direct (source : Text) (ws : List Text) (c : CType) : Prop where
  noOperator : ∀ ts S, Spells ts ws → Tail S → NoOperator (ts ++ S)
  ends : ∀ ts S, Spells ts ws → Tail S → EndsSpecifiers (ts ++ S)
  reads : ∀ ts S e R k outer tokens, Spells ts ws → Tail S →
    (∀ n, k ≤ n → declaratorSuffixes source n S = .ok (e, R)) →
    pointers (tokens.length + 1) [] tokens = (outer, ts ++ S) →
    ∀ n, 8 * ws.length + k ≤ n → declarator source (n + 1) tokens = .ok (c ++ e ++ outer, R)

/-- The tokens of a declarator. More operators may stand in front of them. -/
def Declares (source : Text) (ws : List Text) (c : CType) : Prop :=
  ∀ ts R outer tokens m, Spells ts ws → Closes R → (ts ++ R).length < m →
    pointers (tokens.length + 1) [] tokens = pointers m outer (ts ++ R) →
    ∀ n, 8 * ws.length + 1 ≤ n → declarator source (n + 1) tokens = .ok (c ++ outer, R)

section Declarator

variable {n : Nat} {tokens rest : List Token} {outer inner e : CType}

theorem declarator_unnamed (hpointers : pointers (tokens.length + 1) [] tokens = (outer, ts))
    (hgroup : opensGroup ts = false) (hname : nextStartsName ts = false)
    (hsuffixes : declaratorSuffixes source n ts = .ok (e, R)) :
    declarator source (n + 1) tokens = .ok (e ++ outer, R) := by
  rw [declarator, hpointers]
  dsimp only
  rw [hgroup]
  cases ts with
  | nil =>
    show (declaratorSuffixes source n [] >>= _ : Except DeclarationError (CType × List Token)) = _
    rw [hsuffixes]
    rfl
  | cons token rest =>
    have hcond : (startsName token.text && !builtinWords.contains token.text) = false := by
      rw [show startsName token.text = false from hname]
      rfl
    simp only [Bool.false_eq_true, if_false, hcond]
    show (declaratorSuffixes source n (token :: rest) >>= _ :
      Except DeclarationError (CType × List Token)) = _
    rw [hsuffixes]
    rfl

theorem declarator_named (hw : IsFreeName w)
    (hpointers : pointers (tokens.length + 1) [] tokens = (outer, ⟨w, offset⟩ :: rest))
    (hsuffixes : declaratorSuffixes source n rest = .ok (e, R)) :
    declarator source (n + 1) tokens = .ok (e ++ outer, R) := by
  have hgroup : opensGroup (⟨w, offset⟩ :: rest) = false := by
    rw [opensGroup, decide_eq_false (hw.ne (by decide))]
    rfl
  have hcond : (startsName w && !builtinWords.contains w) = true := by
    rw [hw.1, hw.notKeyword.2.1]
    rfl
  rw [declarator, hpointers]
  dsimp only
  rw [hgroup, hcond]
  show (declaratorSuffixes source n rest >>= _ : Except DeclarationError (CType × List Token)) = _
  rw [hsuffixes]
  rfl

theorem declarator_grouped
    (hpointers : pointers (tokens.length + 1) [] tokens = (outer, ⟨['('], offset⟩ :: ts))
    (hgroup : opensGroup (⟨['('], offset⟩ :: ts) = true) {offset' : Nat}
    (hinner : declarator source n ts = .ok (inner, ⟨[')'], offset'⟩ :: rest))
    (hsuffixes : declaratorSuffixes source n rest = .ok (e, R)) :
    declarator source (n + 1) tokens = .ok (inner ++ e ++ outer, R) := by
  rw [declarator, hpointers]
  dsimp only
  rw [hgroup]
  have hexpect : expect source [')'] (⟨[')'], offset'⟩ :: rest) = .ok rest := by
    rw [expect, if_pos rfl]
  simp only [if_true, List.drop_one, List.tail_cons, bind, Except.bind, pure, Except.pure, hinner,
    hexpect, hsuffixes]

end Declarator

namespace Direct

theorem unnamed : Direct source [] [] where
  noOperator ts S hts hS := by
    rw [hts.nil]
    exact hS.noOperator
  ends ts S hts hS := by
    rw [hts.nil]
    exact hS.endsSpecifiers
  reads ts S e R k outer tokens hts hS hsuffixes hpointers n hn := by
    rw [hts.nil] at hpointers
    have hname : nextStartsName S = false := by
      cases S with
      | nil => rfl
      | cons token rest => exact (hS.head token rfl).1
    exact declarator_unnamed hpointers hS.noGroup hname (hsuffixes n (by simpa using hn))

theorem named (hw : IsFreeName w) : Direct source [w] [] where
  noOperator ts S hts hS := by
    obtain ⟨offset, ts', rfl, hts'⟩ := hts.cons
    rw [hts'.nil]
    have hmember : memberPointer? (⟨w, offset⟩ :: S) = none :=
      memberPointer?_of_name hw.1 hS.noColons
    exact noOperator_cons (hw.ne (by decide)) (hw.ne (by decide)) hw.notKeyword.1 hmember
  ends ts S hts _ := by
    obtain ⟨offset, ts', rfl, -⟩ := hts.cons
    exact hw.endsSpecifiers
  reads ts S e R k outer tokens hts hS hsuffixes hpointers n hn := by
    obtain ⟨offset, ts', rfl, hts'⟩ := hts.cons
    rw [hts'.nil] at hpointers
    exact declarator_named hw hpointers (hsuffixes n (by omega))

theorem suffix (h : Direct source ws c) (hs : ReadsSuffix source vs e) :
    Direct source (ws ++ vs) (c ++ e) where
  noOperator ts S hts _ := by
    obtain ⟨ts₁, ts₂, rfl, h₁, h₂⟩ := hts.append
    rw [List.append_assoc]
    exact h.noOperator ts₁ (ts₂ ++ S) h₁ (hs.tail ts₂ S h₂)
  ends ts S hts _ := by
    obtain ⟨ts₁, ts₂, rfl, h₁, h₂⟩ := hts.append
    rw [List.append_assoc]
    exact h.ends ts₁ (ts₂ ++ S) h₁ (hs.tail ts₂ S h₂)
  reads ts S e' R k outer tokens hts hS hsuffixes hpointers n hn := by
    obtain ⟨ts₁, ts₂, rfl, h₁, h₂⟩ := hts.append
    rw [List.append_assoc] at hpointers
    have hboth := hs.reads ts₂ S e' R k h₂ hS hsuffixes
    have hlength : 8 * ws.length + (8 * vs.length + k) ≤ n := by
      rw [List.length_append] at hn
      omega
    have hwhole := h.reads ts₁ (ts₂ ++ S) (e ++ e') R _ outer tokens h₁ (hs.tail ts₂ S h₂) hboth
      hpointers n hlength
    simpa using hwhole

theorem declares (h : Direct source ws c) : Declares source ws c := by
  intro ts R outer tokens m hts hR hm hpointers n hn
  rw [h.noOperator ts R hts hR.tail m outer] at hpointers
  have hwhole := h.reads ts R [] R 1 outer tokens hts hR.tail
    (fun n hn => declaratorSuffixes_closes hR hn) hpointers n hn
  simpa using hwhole

end Direct

namespace Declares

theorem operator (h : Declares source ws c) (he : ReadsOperator ows e) (hne : ows ≠ []) :
    Declares source (ows ++ ws) (c ++ e) := by
  intro ts R outer tokens m hts hR hm hpointers n hn
  obtain ⟨ts₁, ts₂, rfl, h₁, h₂⟩ := hts.append
  have hpos : 0 < ts₁.length := by
    rw [h₁.length]
    exact List.length_pos_iff.mpr hne
  obtain ⟨m, rfl⟩ : ∃ j, m = j + 1 := ⟨m - 1, by omega⟩
  have hm' : (ts₂ ++ R).length < m := by
    simp only [List.length_append] at hm ⊢
    omega
  rw [List.append_assoc, he ts₁ (ts₂ ++ R) m outer h₁] at hpointers
  have hlength : 8 * ws.length + 1 ≤ n := by
    rw [List.length_append] at hn
    omega
  have hwhole := h ts₂ R (e ++ outer) tokens m h₂ hR hm' hpointers n hlength
  simpa using hwhole

theorem declarator (h : Declares source ws c) (hts : Spells ts ws) (hR : Closes R) {n : Nat}
    (hn : 8 * ws.length + 2 ≤ n) : declarator source n (ts ++ R) = .ok (c, R) := by
  obtain ⟨n, rfl⟩ : ∃ j, n = j + 1 := ⟨n - 1, by omega⟩
  have hwhole := h ts R [] (ts ++ R) ((ts ++ R).length + 1) hts hR (Nat.lt_succ_self _) rfl n
    (by omega)
  simpa using hwhole

end Declares

/-- A parenthesis in front of these tokens groups a declarator. -/
def OpensGroup (ows : List Text) : Prop :=
  ∀ ts T offset, Spells ts ows → opensGroup (⟨['('], offset⟩ :: (ts ++ T)) = true

theorem opensGroup_pointer : OpensGroup [['*']] := by
  intro ts T offset hts
  obtain ⟨offset', ts', rfl, -⟩ := hts.cons
  simp [opensGroup, nextIs]

theorem opensGroup_reference : OpensGroup [['&']] := by
  intro ts T offset hts
  obtain ⟨offset', ts', rfl, -⟩ := hts.cons
  simp [opensGroup, nextIs]

theorem opensGroup_owner {ns : List Text} (hns : ∀ n ∈ ns, IsFreeName n) (hne : ns ≠ []) :
    OpensGroup (pathWords ns ++ ["::".toList, ['*']]) := by
  intro ts T offset hts
  simp [opensGroup, memberPointer?_owner hns hne hts T]

/-- An operator in brackets takes suffixes behind it. -/
theorem Direct.group (h : Declares source ws c) (he : ReadsOperator ows e) (hne : ows ≠ [])
    (hopens : OpensGroup ows) : Direct source (['('] :: (ows ++ ws) ++ [[')']]) (c ++ e) where
  noOperator ts S hts _ := by
    obtain ⟨offset, ts', rfl, -⟩ := hts.cons
    exact noOperator_cons (by decide) (by decide) (by decide)
      (memberPointer?_of_not_name (by decide) (by decide))
  ends ts S hts _ := by
    obtain ⟨offset, ts', rfl, -⟩ := hts.cons
    exact endsSpecifiers_cons (by decide) (by decide) (by decide)
  reads ts S e' R k outer tokens hts hS hsuffixes hpointers n hn := by
    obtain ⟨offset, ts', rfl, hts'⟩ := hts.cons
    obtain ⟨ts₁, ts₂, rfl, h₁, h₂⟩ := hts'.append
    obtain ⟨offset', ts₃, rfl, h₃⟩ := h₂.cons
    rw [h₃.nil] at hpointers
    obtain ⟨tsₒ, tsᵢ, rfl, hₒ, -⟩ := h₁.append
    have hgroup := hopens tsₒ (tsᵢ ++ (⟨[')'], offset'⟩ :: S)) offset hₒ
    have hclose : Closes (⟨[')'], offset'⟩ :: S) := closes_cons (Or.inr (Or.inr rfl))
    have hlength : 8 * (ows ++ ws).length + 2 ≤ n ∧ k ≤ n := by
      simp only [List.length_cons, List.length_append, List.length_nil] at hn ⊢
      omega
    have hinner := (h.operator he hne).declarator h₁ hclose hlength.1
    have hopened : pointers (tokens.length + 1) [] tokens =
        (outer, ⟨['('], offset⟩ :: (tsₒ ++ tsᵢ ++ ⟨[')'], offset'⟩ :: S)) := by
      simpa using hpointers
    have hgrouped : opensGroup (⟨['('], offset⟩ :: (tsₒ ++ tsᵢ ++ ⟨[')'], offset'⟩ :: S)) = true := by
      simpa using hgroup
    exact declarator_grouped hopened hgrouped hinner (hsuffixes n hlength.2)

end BindingTypes.Declaration
