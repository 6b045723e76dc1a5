import BindingTypes.Proofs.Declaration.Formed

namespace BindingTypes.Declaration

open CType

/-- Words, the path they stand in front of, and a rest that begins with template arguments or with a
blank; behind the blank no path stands but a qualifier. -/
structure Lead (ws : List Text) (f x : Text) : Prop where
  words : ∀ w ∈ ws, w ≠ [] ∧ (∀ c ∈ w, isPathChar c = true) ∧ w ∉ qualifierWords
  ne_nil : f ≠ []
  front : ∀ c ∈ f, isPathChar c = true
  unqualified : ws ≠ [] → f ∈ qualifierWords → x.head? ≠ some ' '
  starts : ∃ c u, x = c :: u ∧ c ∈ " <".toList
  behind : ∀ r c u, x = ' ' :: (r ++ c :: u) → r ≠ [] → (∀ d ∈ r, isPathChar d = true) →
    c ∈ " <".toList → r ∈ qualifierWords ∧ c = ' '

variable {s t u v w f f' x x' : Text} {ss ss' ws ws' : List Text} {cs cs' : List Constructor}
  {h h' : Heading} {c d : Constructor} {m : Mark} {ms ns ns' : List Mark}

section Headings

theorem not_isPathChar_of_mem {e : Char} (h : e ∈ " <".toList) (u : Text) :
    ∀ d ∈ (e :: u).head?, isPathChar d = false := by
  rintro d ⟨⟩
  have hbreaks : " <".toList ⊆ breaks := by decide
  exact not_isPathChar (hbreaks h)

/-- In front of a declaration of nothing, the only word is a qualifier. -/
theorem qualifier_of_wound {r : Text} {e : Char} (h : ∀ n ∈ ns, Readable n) (hset : SettledMarks ns)
    (hr : ∀ d ∈ r, isPathChar d = true) (hne : r ≠ []) (he : e ∈ " <".toList)
    (heq : wound ns = r ++ e :: u) : r ∈ qualifierWords ∧ e = ' ' := by
  cases ns with
  | nil => simp [wound] at heq
  | cons n ns =>
    by_cases hn : n.side = .suffix
    · obtain ⟨b, t, ht, hb⟩ := head_wound_suffix h hset hn
      obtain ⟨a, r, rfl⟩ := List.exists_cons_of_ne_nil hne
      rw [heq, List.cons_append] at ht
      obtain ⟨rfl, -⟩ := List.cons_eq_cons.mp ht
      have hbreaks : "([".toList ⊆ breaks := by decide
      have hpath := hr a List.mem_cons_self
      rw [not_isPathChar (hbreaks hb)] at hpath
      cases hpath
    · obtain ⟨r', e', hnt, hr', he', hkind⟩ := (h n List.mem_cons_self).front hn
      rw [wound_text_append hn, hnt, List.append_assoc, List.singleton_append] at heq
      have hbreaks : "*& ".toList ⊆ breaks := by decide
      obtain ⟨rfl, hrest⟩ := path_unique hr' hr (fun d hd => by
        cases hd
        exact not_isPathChar (hbreaks he')) (not_isPathChar_of_mem he u) heq
      obtain ⟨rfl, -⟩ := List.cons_eq_cons.mp hrest
      rcases hkind with ⟨hblank, hq, -⟩ | ⟨hop, -⟩
      · exact ⟨hq, hblank⟩
      · have hnone : ∀ e ∈ " <".toList, e ∉ "*&".toList := by decide
        exact absurd hop (hnone _ he)

namespace Lead

theorem tail (h : Lead (w :: ws) f x) : Lead ws f x :=
  { h with
    words := (List.forall_mem_cons.mp h.words).2
    unqualified := fun _ => h.unqualified (by simp) }

theorem front_unique (h : Lead [] f x) (h' : Lead ws' f' x')
    (heq : f ++ x = ws'.flatMap (· ++ [' ']) ++ (f' ++ x')) : [] = ws' ∧ f = f' ∧ x = x' := by
  obtain ⟨e, u, rfl, he⟩ := h.starts
  obtain ⟨e', u', rfl, he'⟩ := h'.starts
  cases ws' with
  | nil =>
    obtain ⟨hf, hx⟩ := path_unique h.front h'.front (not_isPathChar_of_mem he u)
      (not_isPathChar_of_mem he' u') heq
    exact ⟨rfl, hf, hx⟩
  | cons w ws =>
    obtain ⟨hw, hws⟩ := List.forall_mem_cons.mp h'.words
    rw [List.flatMap_cons, List.append_assoc, List.append_assoc] at heq
    obtain ⟨-, hx⟩ := path_unique h.front hw.2.1 (not_isPathChar_of_mem he u)
      (not_isPathChar_of_mem (by decide) _) heq
    exfalso
    -- a word further on would be read as a qualifier
    cases ws with
    | nil =>
      obtain ⟨hq, rfl⟩ := h.behind f' e' u' hx h'.ne_nil h'.front he'
      exact h'.unqualified (by simp) hq rfl
    | cons v vs =>
      obtain ⟨hne, hchars, hv⟩ := hws v List.mem_cons_self
      refine hv (h.behind v ' ' (vs.flatMap (· ++ [' ']) ++ (f' ++ e' :: u')) ?_ hne hchars
        (by decide)).1
      rw [hx]
      simp

theorem unique (h : Lead ws f x) (h' : Lead ws' f' x')
    (heq : ws.flatMap (· ++ [' ']) ++ (f ++ x) = ws'.flatMap (· ++ [' ']) ++ (f' ++ x')) :
    ws = ws' ∧ f = f' ∧ x = x' := by
  induction ws generalizing ws' with
  | nil => exact h.front_unique h' heq
  | cons w ws ih =>
    cases ws' with
    | nil =>
      obtain ⟨hws, hf, hx⟩ := h'.front_unique h heq.symm
      exact ⟨hws.symm, hf.symm, hx.symm⟩
    | cons w' ws' =>
      obtain ⟨hw, -⟩ := List.forall_mem_cons.mp h.words
      obtain ⟨hw', -⟩ := List.forall_mem_cons.mp h'.words
      rw [List.flatMap_cons, List.flatMap_cons, List.append_assoc, List.append_assoc,
        List.append_assoc, List.append_assoc] at heq
      obtain ⟨rfl, hrest⟩ := path_unique hw.2.1 hw'.2.1 (not_isPathChar_of_mem (by decide) _)
        (not_isPathChar_of_mem (by decide) _) heq
      obtain ⟨rfl, hf, hx⟩ := ih h.tail h'.tail (List.cons_eq_cons.mp hrest).2
      exact ⟨rfl, hf, hx⟩

end Lead

theorem Heading.Proper.lead (hh : h.Plain) (hns : ∀ n ∈ ns, Readable n)
    (hset : SettledMarks ns) : Lead h.words h.front (h.block ss ++ ' ' :: wound ns) where
  words w hw := hh.word hw
  ne_nil := hh.ne_nil
  front := hh.front
  unqualified hne hq := by
    unfold Heading.block
    cases hb : h.template with
    | none => exact absurd hq (hh.unqualified trivial hne hb)
    | some b => simp
  starts := by
    unfold Heading.block
    cases h.template with
    | none => exact ⟨' ', wound ns, rfl, by decide⟩
    | some b =>
      exact ⟨'<', Text.commaJoin ss ++ " >".toList ++ b.2 ++ ' ' :: wound ns, by simp, by decide⟩
  behind r e u heq hne hr he := by
    unfold Heading.block at heq
    cases hb : h.template with
    | none =>
      rw [hb] at heq
      exact qualifier_of_wound hns hset hr hne he (List.cons_eq_cons.mp heq).2
    | some b =>
      rw [hb] at heq
      cases heq

/-- Template arguments are read back up to the blank in front of their angle bracket, and what
stands behind them up to the blank behind the base. -/
theorem block_unique (hh : h.Plain) (hh' : h'.Plain)
    (hss : ∀ s ∈ ss, Within [','] s ∧ s ≠ []) (hss' : ∀ s ∈ ss', Within [','] s ∧ s ≠ [])
    (hnone : h.template = none → ss = []) (hnone' : h'.template = none → ss' = [])
    (heq : h.block ss ++ ' ' :: x = h'.block ss' ++ ' ' :: x') :
    h.template.map Prod.snd = h'.template.map Prod.snd ∧ ss = ss' ∧ x = x' := by
  unfold Heading.block at heq
  cases hb : h.template with
  | none =>
    cases hb' : h'.template with
    | none =>
      rw [hb, hb'] at heq
      rw [hnone hb, hnone' hb']
      exact ⟨rfl, rfl, (List.cons_eq_cons.mp heq).2⟩
    | some b' =>
      rw [hb, hb'] at heq
      cases heq
  | some b =>
    cases hb' : h'.template with
    | none =>
      rw [hb, hb'] at heq
      cases heq
    | some b' =>
      rw [hb, hb'] at heq
      have hlist : ∀ {ss : List Text}, (∀ s ∈ ss, Within [','] s ∧ s ≠ []) →
          Within [] (Text.commaJoin ss ++ [' ']) := fun hss =>
        (within_commaJoin fun s hs => (hss s hs).1.mono (List.nil_subset _)).append
          (.of_plain (by decide))
      have hclose : ∀ t : Text, ∀ c ∈ ('>' :: t).head?, Level.ground.step [] c = none := by
        rintro t c ⟨⟩
        rfl
      have hblank : ∀ t : Text, ∀ c ∈ (' ' :: t).head?, Level.ground.step [' '] c = none := by
        rintro t c ⟨⟩
        rfl
      have htexts : (Text.commaJoin ss ++ [' ']) ++ '>' :: (b.2 ++ ' ' :: x) =
          (Text.commaJoin ss' ++ [' ']) ++ '>' :: (b'.2 ++ ' ' :: x') := by
        simpa using heq
      obtain ⟨hcommas, hrest⟩ := (hlist hss).unique (hlist hss') (hclose _) (hclose _) htexts
      have hscopes : Within [' '] b.2 := (hh.scopes b hb).within (by decide) (by decide)
      have hscopes' : Within [' '] b'.2 := (hh'.scopes b' hb').within (by decide) (by decide)
      obtain ⟨hback, hx⟩ :=
        hscopes.unique hscopes' (hblank _) (hblank _) (List.cons_eq_cons.mp hrest).2
      exact ⟨by simp [hback], commaJoin_unique hss hss' (List.append_cancel_right hcommas),
        (List.cons_eq_cons.mp hx).2⟩

/-- Words, path and template arguments are read back from the spelling of a base. -/
theorem spelled_unique (hh : h.Plain) (hh' : h'.Plain)
    (hss : ∀ s ∈ ss, Within [','] s ∧ s ≠ []) (hss' : ∀ s ∈ ss', Within [','] s ∧ s ≠ [])
    (hnone : h.template = none → ss = []) (hnone' : h'.template = none → ss' = [])
    (hns : ∀ n ∈ ns, Readable n) (hns' : ∀ n ∈ ns', Readable n) (hset : SettledMarks ns)
    (hset' : SettledMarks ns')
    (heq : h.spelled ss ++ ' ' :: wound ns = h'.spelled ss' ++ ' ' :: wound ns') :
    h.words = h'.words ∧ h.front = h'.front ∧
      h.template.map Prod.snd = h'.template.map Prod.snd ∧ ss = ss' ∧ wound ns = wound ns' := by
  have htexts : h.words.flatMap (· ++ [' ']) ++ (h.front ++ (h.block ss ++ ' ' :: wound ns)) =
      h'.words.flatMap (· ++ [' ']) ++ (h'.front ++ (h'.block ss' ++ ' ' :: wound ns')) := by
    simpa [Heading.spelled, Heading.stem] using heq
  obtain ⟨hwords, hfront, hrest⟩ := (hh.lead hns hset).unique (hh'.lead hns' hset') htexts
  exact ⟨hwords, hfront, block_unique hh hh' hss hss' hnone hnone' hrest⟩

end Headings

section Types

theorem Heading.eq_of_arguments (hwords : h.words = h'.words) (hfront : h.front = h'.front)
    (hback : h.template.map Prod.snd = h'.template.map Prod.snd)
    (hargs : h.arguments = h'.arguments) : h = h' := by
  obtain ⟨words, front, template⟩ := h
  obtain ⟨words', front', template'⟩ := h'
  cases hwords
  cases hfront
  unfold Heading.arguments at hargs
  cases template with
  | none =>
    cases template' with
    | none => rfl
    | some b' => cases hback
  | some b =>
    cases template' with
    | none => cases hback
    | some b' =>
      obtain ⟨args, back⟩ := b
      obtain ⟨args', back'⟩ := b'
      cases hback
      obtain rfl : args = args' := hargs
      rfl

theorem Heading.eq_nil_of_arguments {α : Type} {R : CType → α → Prop} {xs : List α}
    (hargs : List.Forall₂ R h.arguments xs) (hb : h.template = none) : xs = [] := by
  rw [Heading.arguments, hb] at hargs
  exact List.forall₂_nil_left_iff.mp hargs

/-- Constructors with one mark are one, where parameters with one spelling are. -/
theorem Marks.unique (hm : Marks c m) (hm' : Marks d m)
    (hspelled : ∀ ps, c = .function ps → ∀ p ∈ ps, ∃ s, spelling p = .ok s ∧ IsSpelling s)
    (hspelled' : ∀ ps, d = .function ps → ∀ p ∈ ps, ∃ s, spelling p = .ok s ∧ IsSpelling s)
    (hps : ∀ ps ps', c = .function ps → d = .function ps' → ∀ p ∈ ps, ∀ p' ∈ ps',
      spelling p = spelling p' → p = p') : c = d := by
  have hlong : ∀ owner : Text, owner ++ "::*".toList ≠ ['*'] ∧ owner ++ "::*".toList ≠ ['&'] := by
    intro owner
    constructor <;>
    · intro h
      have hlength := congrArg List.length h
      simp at hlength
  generalize hn : m = n at hm'
  cases hm with
  | pointer =>
    cases hm' with
    | pointer => rfl
    | memberPointer owner => exact absurd (Mark.operator.inj hn).symm (hlong owner).1
    | _ => cases hn
  | reference =>
    cases hm' with
    | reference => rfl
    | memberPointer owner => exact absurd (Mark.operator.inj hn).symm (hlong owner).2
    | _ => cases hn
  | memberPointer owner =>
    cases hm' with
    | pointer => exact absurd (Mark.operator.inj hn) (hlong owner).1
    | reference => exact absurd (Mark.operator.inj hn) (hlong owner).2
    | memberPointer owner' => rw [List.append_cancel_right (Mark.operator.inj hn)]
    | _ => cases hn
  | qualifier w =>
    cases hm' with
    | qualifier w' => rw [List.append_cancel_right (Mark.lead.inj hn)]
    | _ => cases hn
  | array dimension =>
    cases hm' with
    | array dimension' =>
      rw [List.append_cancel_right (List.cons_eq_cons.mp (Mark.suffix.inj hn)).2]
    | _ => cases hn
  | @function ps ss hss =>
    cases hm' with
    | @function ps' ss' hss' =>
      have hall : ∀ {s}, IsSpelling s → Within [','] s ∧ s ≠ [] := fun h => ⟨h.within, h.ne_nil⟩
      have htexts := List.append_cancel_right (List.cons_eq_cons.mp (Mark.suffix.inj hn)).2
      obtain rfl := commaJoin_unique
        (fun s hs => hall (isSpelling_of_forall₂ hss (hspelled ps rfl) s hs))
        (fun s hs => hall (isSpelling_of_forall₂ hss' (hspelled' ps' rfl) s hs)) htexts
      rw [eq_of_forall₂ hss hss' fun p hp p' hp' s hs hs' =>
        hps ps ps' rfl rfl p hp p' hp' (hs.trans hs'.symm)]
    | _ => cases hn

theorem map_side (h : List.Forall₂ Marks cs ms) : ms.map Mark.side = cs.map sideOf := by
  induction h with
  | nil => rfl
  | cons hm _ ih => rw [List.map_cons, List.map_cons, ih, hm.side]

/-- The order of the constructors is that of the marks, seen from the other end. -/
theorem settledMarks_iff (h : List.Forall₂ Marks cs ms) : SettledMarks ms.reverse ↔
    cs.IsChain fun c d => isQualifierElement c = true → isSuffixElement d = false := by
  have hsides : SettledMarks ms.reverse ↔
      (ms.reverse.map Mark.side).IsChain fun a b => a = .suffix → b ≠ .lead := by
    rw [List.isChain_map, SettledMarks]
  have horder : ∀ c d, (sideOf d = .suffix → sideOf c ≠ .lead) ↔
      (isQualifierElement c = true → isSuffixElement d = false) := by
    intro c d
    cases c <;> cases d <;> simp [sideOf, isQualifierElement, isSuffixElement]
  rw [hsides, List.map_reverse, map_side h, ← List.map_reverse, List.isChain_map,
    List.isChain_reverse]
  simp only [horder]

/-- What is spelled without a blank and without template arguments is a path. -/
theorem Writing.eq_of_within (hw : Writing cs h ms ss) (hh : h.Plain)
    (hset : SettledMarks ms.reverse) (hs : spelling (chain cs h.text) = .ok s)
    (hwithin : Within ", <".toList s) : chain cs h.text = s := by
  -- neither stands behind a path
  have hstop : ∀ {r u : Text} {e : Char}, (∀ d ∈ r, isPathChar d = true) → e ∈ " <".toList →
      s ≠ r ++ e :: u := by
    rintro r u e hr he rfl
    have hmore : " <".toList ⊆ ", <".toList ∧ ∀ e ∈ " <".toList, e ∉ "([".toList := by decide
    exact hwithin.not_closed_before (hmore.1 he) (hmore.2 e he) (within_path (List.nil_subset _) hr)
  have hshort : ∀ {r u : Text} {e : Char}, (∀ d ∈ r, isPathChar d = true) → e ∈ " <".toList →
      s ++ [' '] = r ++ e :: u → u = [] := by
    intro r u e hr he heq
    by_contra hne
    have hdrop := congrArg List.dropLast heq
    rw [List.dropLast_concat, List.dropLast_append_cons, List.dropLast_cons_of_ne_nil hne] at hdrop
    exact hstop hr he hdrop
  obtain ⟨s', hs', htrim⟩ := hw.trimmed hh
  cases hs.symm.trans hs'
  rcases spelled_cases hh ss with ⟨hpath, hr⟩ | ⟨r, e, u, hpath, hr, he⟩
  · rw [hpath] at htrim
    rcases htrim with hwhole | htrim
    · exact absurd hwhole (hstop hr (by decide))
    · have hnil := hshort hr (by decide) htrim
      have hmarks : ms.reverse = [] :=
        wound_unique hw.readable_reverse (List.forall_mem_nil _) hset .nil hnil
      obtain rfl := List.reverse_eq_nil_iff.mp hmarks
      cases hw.marks
      rw [hnil] at htrim
      exact (List.append_cancel_right htrim).symm
  · rw [hpath, List.append_assoc, List.cons_append] at htrim
    rcases htrim with hwhole | htrim
    · exact absurd hwhole (hstop hr he)
    · have hnil := hshort hr he htrim
      simp at hnil

theorem Writing.ne_dots (hw : Writing cs h ms ss) (hh : h.Plain) :
    spelling (chain cs h.text) ≠ .ok "...".toList := by
  intro hs
  have hdots := Except.ok.inj (hw.spelled.symm.trans hs)
  rcases trim_declared (hh.spelled_ends ss) hw.readable_reverse with ⟨hends, -⟩ | ⟨hends, -⟩
  · rw [hdots] at hends
    obtain ⟨u, c, hu, hc⟩ := hends
    have hlast := congrArg List.getLast? hu
    rw [List.getLast?_concat] at hlast
    cases hlast
    exact absurd hc (by decide)
  · rw [hdots] at hends
    exact (hends.last rfl).1 (by decide)

theorem spelling_dots_ne : spelling "...".toList ≠ .ok "...".toList := by
  decide +kernel

theorem Formed.writing {order : Prop} {copied : List CType} (hcs : ∀ c ∈ cs, PlainConstructor c)
    (hh : h.Plain) (hcopied : ∀ a ∈ copied, PlainValue a)
    (hparameters : ∀ ps, .function ps ∈ cs → ∀ p ∈ ps, Formed True order p)
    (harguments : ∀ a ∈ h.arguments, a ∉ copied → Formed True order a) :
    ∃ ms ss, Writing cs h ms ss :=
  exists_writing trivial hcs hh hcopied
    (fun ps hps p hp => ⟨hparameters ps hps p hp, (hparameters ps hps p hp).isSpelling trivial⟩)
    fun a ha hcopy => ⟨harguments a ha hcopy, (harguments a ha hcopy).isSpelling trivial⟩

/-- A copied argument that is spelled as a type is one. -/
theorem Formed.eq_of_value (ht : SettledType t) (hv : PlainValue v)
    (h : spelling t = spelling v) : t = v := by
  rw [hv.spelled trivial] at h
  cases ht with
  | dots =>
    cases declare_varargs.symm.trans h
    exact absurd (hv.spelled trivial) spelling_dots_ne
  | chain hcs hh horder hcopied hparameters harguments =>
    obtain ⟨ms, ss, hw⟩ := Formed.writing hcs hh hcopied hparameters harguments
    have hset := (settledMarks_iff hw.marks).mpr (horder trivial)
    exact hw.eq_of_within hh hset h (hv.within trivial)

theorem argument_unique {a b : CType}
    (ha : PlainValue a ∨ (SettledType a ∧
      ∀ u, SettledType u → spelling a = spelling u → a = u))
    (hb : PlainValue b ∨ SettledType b) (h : spelling a = spelling b) : a = b := by
  rcases ha with ha | ⟨ha, hread⟩ <;> rcases hb with hb | hb
  · exact Except.ok.inj ((ha.spelled trivial).symm.trans (h.trans (hb.spelled trivial)))
  · exact (hb.eq_of_value ha h.symm).symm
  · exact ha.eq_of_value hb h
  · exact hread b hb h

/-- Types of the same spelling are the same type, where no qualifier stands in front of an array or
a function and the arguments of templates are as plain as names are. -/
theorem Formed.eq_of_spelling (ht : SettledType t) (hu : SettledType u)
    (heq : spelling t = spelling u) : t = u := by
  -- over the grammar of the first type: what it is built of is read back from the spelling
  induction ht generalizing u with
  | dots =>
    cases hu with
    | dots => rfl
    | chain hcs hh _ hcopied hparameters harguments =>
      obtain ⟨ms, ss, hw⟩ := Formed.writing hcs hh hcopied hparameters harguments
      exact absurd (heq.symm.trans declare_varargs) (hw.ne_dots hh)
  | @chain cs h copied hcs hh horder hcopied hparameters harguments ihp iha =>
    obtain ⟨ms, ss, hw⟩ := Formed.writing hcs hh hcopied hparameters harguments
    cases hu with
    | dots => exact absurd (heq.trans declare_varargs) (hw.ne_dots hh)
    | @chain cs' h' copied' hcs' hh' horder' hcopied' hparameters' harguments' =>
      obtain ⟨ms', ss', hw'⟩ := Formed.writing hcs' hh' hcopied' hparameters' harguments'
      have hset := (settledMarks_iff hw.marks).mpr (horder trivial)
      have hset' := (settledMarks_iff hw'.marks).mpr (horder' trivial)
      have htexts := trim_unique (hh.spelled_ends ss) (hh'.spelled_ends ss') hw.readable_reverse
        hw'.readable_reverse (Except.ok.inj (hw.spelled.symm.trans (heq.trans hw'.spelled)))
      obtain ⟨hwords, hfront, hback, rfl, hwound⟩ := spelled_unique hh hh' hw.within hw'.within
        (Heading.eq_nil_of_arguments hw.arguments) (Heading.eq_nil_of_arguments hw'.arguments)
        hw.readable_reverse hw'.readable_reverse hset hset' htexts
      obtain rfl := List.reverse_injective
        (wound_unique hw.readable_reverse hw'.readable_reverse hset hset' hwound)
      have hargs : h.arguments = h'.arguments :=
        eq_of_forall₂ hw.arguments hw'.arguments fun a ha b hb s hs hs' => by
          refine argument_unique ?_ ?_ (hs.trans hs'.symm)
          · by_cases hcopy : a ∈ copied
            · exact Or.inl (hcopied a hcopy)
            · exact Or.inr ⟨harguments a ha hcopy, fun u hu => iha a ha hcopy hu⟩
          · by_cases hcopy : b ∈ copied'
            · exact Or.inl (hcopied' b hcopy)
            · exact Or.inr (harguments' b hb hcopy)
      have hconstructors : cs = cs' :=
        eq_of_forall₂ hw.marks hw'.marks fun c hc d hd m hm hm' => by
          refine hm.unique hm' (fun ps h p hp => ?_) (fun ps h p hp => ?_)
            fun ps ps' h h' p hp p' hp' => ?_
          · exact (hparameters ps (h ▸ hc) p hp).isSpelling trivial
          · exact (hparameters' ps (h ▸ hd) p hp).isSpelling trivial
          · exact ihp ps (h ▸ hc) p hp (hparameters' ps' (h' ▸ hd) p' hp')
      rw [hconstructors, Heading.eq_of_arguments hwords hfront hback hargs]

/-- What C can write down is the only settled type of its spelling. -/
theorem Declarable.eq_of_spelling (ht : Declarable t) (hu : SettledType u)
    (h : spelling u = spelling t) : u = t := Formed.eq_of_spelling hu ht.settledType h

end Types

section Settling

/-- A constructor that is written as another one is, of settled parameters. -/
structure Renews (c d : Constructor) : Prop where
  spelt : PlainConstructor d
  marks : ∀ m, Marks c m → Marks d m
  parameters : ∀ us, d = .function us → ∀ u ∈ us, SettledType u

theorem Marks.functional {n : Mark} (hm : Marks c m) (hn : Marks c n) : m = n := by
  cases hm with
  | function hss =>
    cases hn with
    | function hss' =>
      rw [List.right_unique_forall₂' (fun _ _ _ hs hs' => Except.ok.inj (hs.symm.trans hs'))
        hss hss']
  | _ =>
    cases hn
    rfl

theorem exists_renewed (hc : PlainConstructor c)
    (hps : ∀ ps, c = .function ps → ∀ p ∈ ps, ∃ u, SettledType u ∧ spelling u = spelling p) :
    ∃ d, Renews c d := by
  cases c with
  | function ps =>
    obtain ⟨us, hus⟩ := exists_forall₂ (hps ps rfl)
    refine ⟨.function us, trivial, fun m hm => ?_, fun vs hvs u hu => ?_⟩
    · cases hm with
      | function hss =>
        exact .function (forall₂_through hus hss fun p u s h hs => h.2.trans hs)
    · cases hvs
      obtain ⟨p, -, h⟩ := exists_left_of_forall₂ hus hu
      exact h.1
  | pointer => exact ⟨_, hc, fun _ h => h, nofun⟩
  | reference => exact ⟨_, hc, fun _ h => h, nofun⟩
  | memberPointer owner => exact ⟨_, hc, fun _ h => h, nofun⟩
  | qualifier w => exact ⟨_, hc, fun _ h => h, nofun⟩
  | array dimension => exact ⟨_, hc, fun _ h => h, nofun⟩

/-- The same name with other template arguments. -/
def Heading.withArguments (h : Heading) (args : List CType) : Heading :=
  { h with template := h.template.map fun b => (args, b.2) }

theorem Heading.Proper.withArguments (hh : h.Plain) (args : List CType) :
    (h.withArguments args).Plain where
  words := hh.words
  ne_nil := hh.ne_nil
  front := hh.front
  scopes b hb := by
    obtain ⟨b', hb', rfl⟩ := Option.map_eq_some_iff.mp hb
    exact hh.scopes b' hb'
  unqualified hp hne hb := hh.unqualified hp hne (Option.map_eq_none_iff.mp hb)

theorem Heading.spelled_withArguments (args : List CType) (ss : List Text) :
    (h.withArguments args).spelled ss = h.spelled ss := by
  obtain ⟨words, front, template⟩ := h
  cases template <;> rfl

theorem Heading.arguments_withArguments {R : CType → CType → Prop} {args : List CType}
    (hargs : List.Forall₂ R h.arguments args) : (h.withArguments args).arguments = args := by
  obtain ⟨words, front, template⟩ := h
  cases template with
  | none => exact (Heading.eq_nil_of_arguments hargs rfl).symm
  | some b => rfl

/-- Constructors in the order in which the declaration of their marks is read. -/
def settled (cs : List Constructor) : List Constructor := (settle sideOf cs.reverse).reverse

theorem mem_settled : c ∈ settled cs ↔ c ∈ cs := by
  rw [settled, List.mem_reverse, settle, mem_settleFrom, List.mem_reverse]
  simp

theorem settled_order (cs : List Constructor) : (settled cs).IsChain fun c d =>
    isQualifierElement c = true → isSuffixElement d = false := by
  have hchain : (settle sideOf cs.reverse).IsChain fun c d =>
      sideOf c = .suffix → sideOf d ≠ .lead := settled_settleFrom (by simp)
  refine List.isChain_reverse.mpr (hchain.imp fun c d h => ?_)
  cases c <;> cases d <;> simp_all [sideOf, isQualifierElement, isSuffixElement]

theorem settled_marks (h : List.Forall₂ Marks cs ms) :
    List.Forall₂ Marks (settled cs) (settle Mark.side ms.reverse).reverse :=
  List.rel_reverse (forall₂_settleFrom (fun _ _ hm => hm.side.symm) .nil (List.rel_reverse h))

theorem wound_settle (ms : List Mark) : wound (settle Mark.side ms) = wound ms := by
  have hwound : wound (settleFrom Mark.side false [] ms) = _ := wound_settleFrom (by simp) nofun
  simpa [settle] using hwound

/-- What is declared reads the same where the constructors are settled and the parameters and
arguments are exchanged for others of the same spelling. -/
theorem Writing.respelled {ds : List Constructor} {args : List CType} {ms' : List Mark}
    (hw : Writing cs h ms ss) (hds : List.Forall₂ Renews cs ds)
    (hargs : List.Forall₂ (fun a b => spelling b = spelling a) h.arguments args)
    (hw' : Writing (settled ds) (h.withArguments args) ms' ss') :
    spelling (chain (settled ds) (h.withArguments args).text) = spelling (chain cs h.text) := by
  have hmarks : List.Forall₂ Marks ds ms :=
    forall₂_through hds hw.marks fun c d m hr hm => hr.marks m hm
  obtain rfl : ms' = (settle Mark.side ms.reverse).reverse :=
    List.right_unique_forall₂' (fun _ _ _ hm hn => hm.functional hn) hw'.marks
      (settled_marks hmarks)
  have hss := hw'.arguments
  rw [Heading.arguments_withArguments hargs] at hss
  obtain rfl : ss' = ss := List.right_unique_forall₂'
    (fun _ _ _ hs hs' => Except.ok.inj (hs.symm.trans hs')) hss
    (forall₂_through hargs hw.arguments fun _ _ _ hb hs => hb.trans hs)
  rw [hw.spelled, hw'.spelled, Heading.spelled_withArguments, List.reverse_reverse, wound_settle]

/-- Every type is spelled as a settled one is. -/
theorem Formed.exists_settled (ht : PlainType t) :
    ∃ u, SettledType u ∧ spelling u = spelling t := by
  induction ht with
  | dots => exact ⟨varargs, .dots, rfl⟩
  | @chain cs h copied hcs hh _ hcopied hparameters harguments ihp iha =>
    obtain ⟨ms, ss, hw⟩ := Formed.writing hcs hh hcopied hparameters harguments
    have hrenewed : ∀ c ∈ cs, ∃ d, Renews c d := fun c hc =>
      exists_renewed (hcs c hc) fun ps h p hp => ihp ps (h ▸ hc) p hp
    obtain ⟨ds, hds⟩ := exists_forall₂ hrenewed
    have hexchanged : ∀ a ∈ h.arguments,
        ∃ b, spelling b = spelling a ∧ (b ∉ copied → SettledType b) := by
      intro a ha
      by_cases hcopy : a ∈ copied
      · exact ⟨a, rfl, fun hno => absurd hcopy hno⟩
      · obtain ⟨u, hu, hs⟩ := iha a ha hcopy
        exact ⟨u, hs, fun _ => hu⟩
    obtain ⟨args, hargs⟩ := exists_forall₂ hexchanged
    have hrenews : ∀ d ∈ settled ds, ∃ c, Renews c d := fun d hd =>
      (exists_left_of_forall₂ hds (mem_settled.mp hd)).imp fun c h => h.2
    have hspelt : ∀ d ∈ settled ds, PlainConstructor d := fun d hd =>
      (hrenews d hd).elim fun c h => h.spelt
    have hps : ∀ us, .function us ∈ settled ds → ∀ u ∈ us, SettledType u := fun us hus =>
      (hrenews _ hus).elim fun c h => h.parameters us rfl
    have has : ∀ b ∈ (h.withArguments args).arguments, b ∉ copied → SettledType b := by
      rw [Heading.arguments_withArguments hargs]
      intro b hb
      obtain ⟨a, -, h⟩ := exists_left_of_forall₂ hargs hb
      exact h.2
    have hh' := hh.withArguments args
    obtain ⟨ms', ss', hw'⟩ := Formed.writing hspelt hh' hcopied hps has
    exact ⟨_, .chain hspelt hh' (fun _ => settled_order ds) hcopied hps has,
      hw.respelled hds (hargs.imp fun a b h => h.1) hw'⟩

end Settling

end BindingTypes.Declaration
