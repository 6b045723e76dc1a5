import BindingTypes.Proofs.Declaration.Bases
import BindingTypes.Proofs.Declaration.Formed

namespace BindingTypes.Declaration

open CType

variable {source d id : Text} {ns : List Text} {t : CType} {c : Constructor}

theorem lexes_dimension (hd : d.all isIdentChar = true) : Lexes d (dimensionWords d) := by
  by_cases hne : d = []
  · subst hne
    exact .nil
  · rw [dimensionWords, if_neg hne]
    exact .single hne (List.all_eq_true.mp hd)

theorem writes_array (hd : d.all isIdentChar = true) :
    Writes source (.array d) (.suffix ('[' :: d ++ [']'])) := by
  have hlex : Lexes ('[' :: d ++ [']']) (['['] :: dimensionWords d ++ [[']']]) :=
    (lexes_dimension hd).between (by decide) (by decide)
  refine .suffix (readsSuffix_array hd) hlex (fun c hc => ?_) rfl
  cases hc
  rfl

theorem writes_memberPointer (hns : ∀ n ∈ ns, IsFreeName n) (hne : ns ≠ []) :
    Writes source (.memberPointer (pathText ns)) (.operator (pathText ns ++ "::*".toList)) := by
  have hstar : Lexes "::*".toList ["::".toList, ['*']] := .colons (.symbol (by decide) .nil)
  have hlex := (lexes_path hns).append_of_head hstar fun d hd => by
    cases hd
    rfl
  refine .operator (isOperator_owner hns hne) hlex (fun c hc => ?_) rfl
  rw [List.getLast?_append_of_ne_nil _ (by decide)] at hc
  cases hc
  rfl

section Function

variable {ps : List CType} {ss : List Text} {wss : List (List Text)}

theorem writes_function (hvoid : ps ≠ ["void".toList]) (hlexes : List.Forall₂ Lexes ss wss)
    (hreads : List.Forall₂ (ReadsDeclaration source) wss ps) :
    Writes source (.function ps) (.suffix ('(' :: Text.commaJoin ss ++ [')'])) := by
  have hlex : Lexes ('(' :: Text.commaJoin ss ++ [')']) (['('] :: listWords wss ++ [[')']]) :=
    (lexes_commaJoin hlexes).between (by decide) (by decide)
  refine .suffix (readsSuffix_function hreads hvoid) hlex (fun c hc => ?_) rfl
  cases hc
  rfl

end Function

/-- The mark of an element, which is read back. -/
theorem writes_spellable (hc : IsSpellable c)
    (hps : ∀ ps, c = .function ps → ∀ p ∈ ps, Listable p ∧ p ≠ [] ∧
      ∃ s ws, spelling p = .ok s ∧ Lexes s ws ∧ ReadsDeclaration source ws p) :
    ∃ m, mark c.text = .ok m ∧ Writes source c m := by
  cases c with
  | pointer =>
    refine ⟨_, mark_pointer, .operator isOperator_pointer (.symbol (by decide) .nil) ?_ rfl⟩
    intro d hd
    cases hd
    rfl
  | reference =>
    refine ⟨_, mark_reference, .operator isOperator_reference (.symbol (by decide) .nil) ?_ rfl⟩
    intro d hd
    cases hd
    rfl
  | array d =>
    have hbalanced := (listable_of_isWording (isWording_of_chars (List.all_eq_true.mp hc))).balanced
    exact ⟨_, mark_array hbalanced, writes_array hc⟩
  | function ps =>
    have hparameters := hps ps rfl
    obtain ⟨ss, wss, hss, hlexes, hreads⟩ := exists_spellings fun p hp => (hparameters p hp).2.2
    exact ⟨_, mark_function (fun p hp => (hparameters p hp).1) (fun p hp => (hparameters p hp).2.1)
      hss, writes_function hc hlexes hreads⟩
  | qualifier w =>
    have hall : (qualifierWords.all isWording) = true := by decide
    have hbalanced := (listable_of_isWording (List.all_eq_true.mp hall w hc)).balanced
    exact ⟨_, mark_qualifier hbalanced, .qualifier hc⟩
  | memberPointer owner =>
    obtain ⟨ns, hne, hns, rfl⟩ := hc
    have hbalanced := (listable_of_isWording (isWording_path hns)).balanced
    exact ⟨_, mark_memberPointer hbalanced, writes_memberPointer hns hne⟩

theorem elements_declared {cs : List Constructor} {b : Base} (hcs : ∀ c ∈ cs, IsSpellable c)
    (hb : b.IsSpelled) (hps : ∀ ps, .function ps ∈ cs → ∀ p ∈ ps, Balanced p)
    (hargs : ∀ a ∈ b.arguments, Balanced a) :
    elements (chain cs b.text) = .ok (cs.map Constructor.text ++ [b.text]) := by
  have hdotted : ∀ e ∈ cs.map Constructor.text, Dotted e := by
    intro e he
    obtain ⟨c, hc, rfl⟩ := List.mem_map.mp he
    refine ((hcs c hc).text fun ps hps' => ?_).1
    subst hps'
    exact hps ps hc
  rw [chain, elements_flatten hdotted, Base.elements_text hb hargs]
  rfl

theorem isIdentStart_of_isDigit {c : Char} (h : c.isDigit = true) : isIdentStart c = false := by
  simp only [Char.isDigit, Bool.and_eq_true, decide_eq_true_eq] at h
  have hnine : c.toNat ≤ 57 := h.2
  have hunderscore : c ≠ '_' := by
    rintro rfl
    exact absurd hnine (by decide)
  have hupper : c.isUpper = false := Bool.eq_false_iff.mpr fun hupper => by
    have hletter : 65 ≤ c.toNat := (of_decide_eq_true hupper).1
    omega
  have hlower : c.isLower = false := Bool.eq_false_iff.mpr fun hlower => by
    have hletter : 97 ≤ c.toNat := of_decide_eq_true (Bool.and_eq_true_iff.mp hlower).1
    omega
  show ((c.isUpper || c.isLower) || decide (c = '_')) = false
  rw [hupper, hlower, decide_eq_false hunderscore]
  rfl

theorem number_argument (h : IsNumber d) :
    ∃ s ws, spelling d = .ok s ∧ Lexes s ws ∧ ReadsArgument source ws d := by
  have hname : startsName d = false := by
    obtain ⟨c, d, rfl⟩ := List.exists_cons_of_ne_nil h.1
    exact isIdentStart_of_isDigit (List.all_eq_true.mp h.2 c List.mem_cons_self)
  exact ⟨d, [d], h.plainValue.spelled trivial, .single h.1 (List.all_eq_true.mp h.chars),
    readsArgument_number hname h.chars h.1⟩

/-- A declaration of a type that C can write down falls into tokens that are read back. -/
theorem Declarable.declaration (source : Text) (ht : Declarable t) (hid : id = [] ∨ IsFreeName id) :
    ∃ s ws, CType.declare t id = .ok s ∧ Lexes s ws ∧ ReadsDeclaration source ws t := by
  -- over the grammar: what parameters and arguments declare has no name
  induction ht generalizing id with
  | @chain cs b hcs hb horder hlast hparameters harguments ihp iha =>
    have hps : ∀ ps, .function ps ∈ cs → ∀ p ∈ ps, Listable p ∧ p ≠ [] ∧
        ∃ s ws, spelling p = .ok s ∧ Lexes s ws ∧ ReadsDeclaration source ws p := by
      intro ps hc p hp
      by_cases hvar : p = varargs
      · subst hvar
        exact ⟨listable_varargs, by decide, _, _, declare_varargs, .dots .nil,
          readsDeclaration_varargs⟩
      · have hdecl := hparameters ps hc p hp hvar
        exact ⟨hdecl.listable, hdecl.ne_nil, ihp ps hc p hp hvar (Or.inl rfl)⟩
    have hargs : ∀ a ∈ b.arguments, Listable a ∧ a ≠ [] ∧
        ∃ s ws, spelling a = .ok s ∧ Lexes s ws ∧ ReadsArgument source ws a := by
      intro a ha
      by_cases hnumber : IsNumber a
      · exact ⟨hnumber.listable, hnumber.1, number_argument hnumber⟩
      · have hdecl := harguments a ha hnumber
        obtain ⟨s, ws, hs, hlex, hread⟩ := iha a ha hnumber (Or.inl rfl)
        exact ⟨hdecl.listable, hdecl.ne_nil, s, ws, hs, hlex, hread.argument⟩
    obtain ⟨s, wsb, hs, hlex, hbase⟩ := base_spelling hb hargs
    have hmarked : ∀ c ∈ cs, ∃ m, mark c.text = .ok m ∧ Writes source c m := by
      intro c hc
      refine writes_spellable (hcs c hc) fun ps hps' => ?_
      subst hps'
      exact hps ps hc
    obtain ⟨ms, hms⟩ := exists_forall₂ hmarked
    have helements := elements_declared hcs hb (fun ps hc p hp => (hps ps hc p hp).1.balanced)
      fun a ha => (hargs a ha).1.balanced
    have hvarargs : varargs ∉ cs.map Constructor.text ++ [b.text] := by
      intro hmem
      rcases List.mem_append.mp hmem with hmem | hmem
      · obtain ⟨c, -, hc⟩ := List.mem_map.mp hmem
        have hlast := text_getLast? c
        rw [hc] at hlast
        cases hlast
      · have hlast := Base.getLast?_text hb (d := ')') (by decide)
        rw [← List.mem_singleton.mp hmem] at hlast
        exact hlast rfl
    have hmarks : List.Forall₂ (fun e m => mark e = .ok m) (cs.map Constructor.text ++ [b.text])
        (ms ++ [.lead (s ++ [' '])]) := by
      refine List.rel_append ?_ (.cons (mark_base (Base.getLast?_text hb (by decide)) hs) .nil)
      exact List.forall₂_map_left_iff.mpr (hms.imp fun c m h => h.1)
    have hwrites : List.Forall₂ (Writes source) cs ms := hms.imp fun c m h => h.2
    obtain ⟨ws, hwords, hread⟩ := declaration_reads hwrites horder hlast hbase hlex hid
    exact ⟨_, ws, declare_of_elements helements hvarargs hmarks id, hwords, hread⟩

/-- What is read at the start of a text and leaves nothing is what the text declares. -/
theorem parse_of_reads {s : Text} {ws : List Text} (hs : Lexes s ws)
    (h : ReadsDeclaration s ws t) : parse s = .ok t := by
  have hts : Spells (tokens s) ws := texts_tokensFrom hs 0
  obtain ⟨w, vs, hws, -⟩ := h.starts
  have hlength := hts.length
  have hread := h.reads (tokens s) [] hts (by simp [Closes]) (8 * ((tokens s).length + 1))
    (by omega)
  rw [List.append_nil] at hread
  cases htokens : tokens s with
  | nil =>
    rw [htokens, hws] at hlength
    cases hlength
  | cons token rest =>
    rw [htokens] at hread
    rw [parse, htokens]
    show (declaration s _ (token :: rest) >>= _ : Except DeclarationError CType) = _
    rw [hread]
    rfl

/-- The parser undoes the printer: what C can write down is read back, with a declared name or
without one. -/
theorem parse_declare (ht : Declarable t) (hid : id = [] ∨ IsFreeName id) :
    ∃ s, CType.declare t id = .ok s ∧ parse s = .ok t := by
  -- an error of the parser quotes its text, so that text has to be known first
  obtain ⟨s, -, hs, -⟩ := ht.declaration [] hid
  obtain ⟨s', ws, hs', hlex, hread⟩ := ht.declaration s hid
  cases hs.symm.trans hs'
  exact ⟨s, hs, parse_of_reads hlex hread⟩

theorem ne_qualifiers {d : Constructor} (hc : isQualifierElement c = false)
    (ds : List Constructor) (w w' : Text) :
    [c, d] ≠ ds ++ [.qualifier w, .qualifier w'] := by
  intro h
  have hwhole : [] ++ [c, d] = ds ++ [.qualifier w, .qualifier w'] := h
  obtain ⟨-, hpair⟩ := List.append_inj' hwhole rfl
  cases hpair
  cases hc

/-- A pointer to a function with an open parameter list that gives a nested type of a template. -/
theorem declarable_callback :
    Declarable "p.f(p.q(const).char,v(...)).struct Map<(int,3)>::node".toList := by
  have hint : Declarable (chain [] (Base.builtin ["int".toList]).text) := by
    refine .chain (by simp) ?_ .nil (by simp) (by simp) (by simp [Base.arguments])
    simp [Base.IsSpelled, builtinSpellings]
  have hchar : Declarable (chain [.pointer, .qualifier "const".toList]
      (Base.builtin ["char".toList]).text) := by
    refine .chain ?_ ?_ ?_ (ne_qualifiers rfl) (by simp) (by simp [Base.arguments])
    · simp [IsSpellable, qualifierWords]
    · simp [Base.IsSpelled, builtinSpellings]
    · simp [isSuffixElement]
  have hthree : IsNumber "3".toList := ⟨by decide, by decide⟩
  show Declarable (chain [.pointer, .function ["p.q(const).char".toList, varargs]]
    (Base.named (some "struct".toList) [] "Map".toList (some ["int".toList, "3".toList])
      ["node".toList]).text)
  refine .chain ?_ ?_ ?_ (ne_qualifiers rfl) ?_ ?_
  · simp [IsSpellable]
  · refine ⟨fun w hw => ?_, List.forall_mem_cons.mpr ⟨by decide, ?_⟩⟩
    · cases hw
      decide
    · exact List.forall_mem_singleton.mpr (by decide)
  · simp [isQualifierElement]
  · intro ps hps p hp hvar
    obtain rfl : ps = ["p.q(const).char".toList, varargs] := by simpa using hps
    rcases List.mem_pair.mp hp with rfl | rfl
    · exact hchar
    · exact absurd rfl hvar
  · intro a ha hnumber
    rcases List.mem_pair.mp ha with rfl | rfl
    · exact hint
    · exact absurd hthree hnumber

theorem callback_read_back :
    Declarable "p.f(p.q(const).char,v(...)).struct Map<(int,3)>::node".toList ∧
      IsFreeName "cb".toList ∧
      ∃ s, CType.declare "p.f(p.q(const).char,v(...)).struct Map<(int,3)>::node".toList "cb".toList =
          .ok s ∧ parse s = .ok "p.f(p.q(const).char,v(...)).struct Map<(int,3)>::node".toList :=
  ⟨declarable_callback, by decide, parse_declare declarable_callback (Or.inr (by decide))⟩

end BindingTypes.Declaration
