import BindingTypes.CType.Rename
import BindingTypes.Proofs.CType.Spelled
import BindingTypes.Proofs.CType.Substitution

namespace BindingTypes

namespace Text

variable {n rep t u : Text}

/-- A name in front of what is no letter is the first whole occurrence. -/
theorem replaceFirstWhole_front (hn : IsIdentifier n) (hu : ∀ c ∈ u.head?, isIdentChar c = false) :
    (n ++ u).replaceFirstWhole n rep = rep ++ u := by
  have hcut : cutWhole? n false (n ++ u) = some ([], u) := by
    rw [cutWhole?_word hn hn.1 hn.2 hu, if_pos rfl]
  rw [replaceFirstWhole, if_neg hn.1, hcut]
  rfl

theorem replaceFirstWhole_of_hasWhole (h : t.hasWhole n = false) :
    t.replaceFirstWhole n rep = t := by
  unfold replaceFirstWhole
  split
  · rfl
  · have hcut : cutWhole? n false t = none := by simpa [hasWhole, *] using h
    rw [hcut]

theorem has_iff : t.has n = true ↔ n <:+: t := by
  constructor
  · intro h
    obtain ⟨r, hr⟩ := Option.isSome_iff_exists.mp h
    exact ⟨r.1, r.2, (eq_of_cut? hr).symm⟩
  · rintro ⟨x, y, rfl⟩
    rw [has]
    induction x with
    | nil =>
      cases hcut : cut? ([] ++ n ++ y) n with
      | some r => rfl
      | none =>
        exfalso
        have hafter : after? (n ++ y) n = some y := after?_eq_some_iff.mpr rfl
        cases n with
        | nil => cases y <;> simp [cut?, after?] at hcut
        | cons c n =>
          rw [List.cons_append] at hafter
          simp [cut?, hafter] at hcut
    | cons c x ih =>
      rw [List.cons_append, List.cons_append, cut?]
      split
      · rfl
      · rw [Option.isSome_map]
        exact ih

/-- The first occurrence of a text that begins with its only character `c`. -/
theorem cut?_append {c : Char} {needle : Text} (hneedle : c ∉ needle)
    (ht : t.has (c :: needle) = false) (rest : Text) :
    (t ++ (c :: needle ++ rest)).cut? (c :: needle) = some (t, rest) := by
  rw [Bool.eq_false_iff, ne_eq, has_iff] at ht
  induction t with
  | nil =>
    have hfront : after? (c :: needle ++ rest) (c :: needle) = some rest :=
      after?_eq_some_iff.mpr rfl
    rw [List.nil_append, List.cons_append, cut?, ← List.cons_append, hfront]
  | cons b t ih =>
    have hrest := ih fun h => ht (h.trans (List.suffix_cons b t).isInfix)
    rw [List.cons_append, cut?]
    split
    · rename_i r hr
      obtain ⟨rfl, heq⟩ := List.cons_eq_cons.mp (after?_eq_some_iff.mp hr)
      -- an occurrence that begins in `t` lies in `t`, or takes in a second `c`
      rcases List.append_eq_append_iff.mp heq with ⟨x, rfl, hx⟩ | ⟨x, rfl, -⟩
      · cases x with
        | nil => exact absurd ⟨[], [], by simp⟩ ht
        | cons a x =>
          obtain ⟨rfl, -⟩ := List.cons_eq_cons.mp hx
          exact absurd (List.mem_append_right _ List.mem_cons_self) hneedle
      · exact absurd ⟨[], x, rfl⟩ ht
    · rw [hrest]
      rfl

end Text

namespace QualifiedName

/-- A first component without colons. -/
theorem cutFirst?_append {n : Text} (h : CType.Unbracketed n) (hc : ':' ∉ n) (u : Text) :
    cutFirst? 0 (n ++ "::".toList ++ u) = some (n, u) := by
  induction n with
  | nil => rfl
  | cons c cs ih =>
    have hne : c ≠ ':' := fun he => hc (he ▸ List.mem_cons_self)
    have htail := ih h.tail fun hm => hc (List.mem_cons_of_mem _ hm)
    have hstep := cutFirst?.eq_3 0 c (cs ++ "::".toList ++ u)
    rw [depthAfter_unbracketed h] at hstep
    rw [List.cons_append, List.cons_append, hstep fun cs' _ he => absurd he hne, htail]
    rfl

end QualifiedName

namespace CType

open Declaration (pathText)

variable {pat n : Text} {t : Pieces} {p : Piece} {path : List Text}

theorem concatMap_eq_mapM {t : CType} {es : List Text} {f : Text → Except Fault Text}
    (he : elements t = .ok es) :
    (concatMap t fun e => f e.1) = ((es.mapM f).map List.flatten : Except Fault Text) := by
  rw [concatMap_eq fun _ => rfl, scan_of_elements he]
  cases es.mapM f <;> rfl

theorem infix_of_mem_pieces (h : p ∈ t) : p.text <:+: piecesText t := by
  rw [piecesText_eq]
  obtain ⟨before, after, rfl⟩ := List.append_of_mem h
  exact ⟨(before.map Piece.text).flatten, (after.map Piece.text).flatten, by simp⟩

theorem infix_commaJoin {as : List Text} {a : Text} (h : a ∈ as) : a <:+: Text.commaJoin as := by
  induction as with
  | nil => cases h
  | cons b as ih =>
    cases as with
    | nil =>
      rw [List.mem_singleton.mp h]
      simp [Text.commaJoin]
    | cons c as =>
      rw [Text.commaJoin, List.intercalate_cons_cons]
      rcases List.mem_cons.mp h with rfl | h
      · exact ⟨[], [','] ++ Text.commaJoin (c :: as), by simp [Text.commaJoin]⟩
      · exact (ih h).trans (List.suffix_append ..).isInfix

theorem mem_piecesTexts {ts : List Pieces} (h : t ∈ ts) : piecesText t ∈ piecesTexts ts := by
  rw [piecesTexts_eq]
  exact List.mem_map_of_mem h

theorem infix_of_mem_each {ts : List Pieces} (ht : t ∈ ts) (hp : p ∈ t) :
    p.text <:+: Text.commaJoin (piecesTexts ts) :=
  (infix_of_mem_pieces hp).trans (infix_commaJoin (mem_piecesTexts ht))

theorem infix_function {ps : List Pieces} (ht : t ∈ ps) (hp : p ∈ t) :
    p.text <:+: (Piece.function ps).text :=
  (infix_of_mem_each ht hp).trans ⟨"f(".toList, ").".toList, by simp [Piece.text, written]⟩

theorem infix_template {stem : List Text} {args : List Pieces} {tail : Text} (ht : t ∈ args)
    (hp : p ∈ t) : p.text <:+: (Piece.template stem args tail).text :=
  (infix_of_mem_each ht hp).trans
    ⟨pathText stem ++ "<(".toList, ")>".toList ++ tail, by simp [Piece.text, angled]⟩

/-- The first template arguments are those behind a front that opens none. -/
theorem cut?_of_noOpening {front : Text} (h : NoOpening front) (u : Text) :
    Text.cut? (front ++ "<(".toList ++ u) "<(".toList = some (front, u) := by
  induction front with
  | nil => simp [Text.cut?, Text.after?]
  | cons c t ih =>
    have hnone : Text.after? (c :: (t ++ "<(".toList ++ u)) "<(".toList = none := by
      rw [Option.eq_none_iff_forall_ne_some]
      intro r hr
      obtain ⟨rfl, hrest⟩ := List.cons.inj (Text.after?_eq_some_iff.mp hr)
      cases t with
      | nil => cases (List.cons.inj hrest).1
      | cons d t =>
        cases (List.cons.inj hrest).1
        exact h ⟨[], t, rfl⟩
    rw [List.cons_append, List.cons_append, Text.cut?, hnone,
      ih (h.of_within (List.suffix_cons c t).isInfix)]
    rfl

theorem noOpening_of_cut? {t front opened : Text} (h : t.cut? "<(".toList = some (front, opened)) :
    NoOpening front := by
  induction t generalizing front with
  | nil => cases h
  | cons c t ih =>
    unfold Text.cut? at h
    split at h
    · cases h
      exact noOpening_of_notMem List.not_mem_nil
    · rename_i hnone
      obtain ⟨⟨f, r⟩, hcut, he⟩ := Option.map_eq_some_iff.mp h
      cases he
      intro hin
      rcases List.infix_cons_iff.mp hin with ⟨w, hw⟩ | hin
      · have hstarts : c :: t = "<(".toList ++ (w ++ "<(".toList ++ r) := by
          rw [Text.eq_of_cut? hcut, ← List.cons_append, ← List.cons_append, ← hw]
          simp
        rw [Text.after?_eq_some_iff.mpr hstarts] at hnone
        cases hnone
      · exact ih hcut hin

/-- What stands before the template arguments opens none. -/
theorem noOpening_of_templateStem {rep head : Text} (h : templateStem rep = .ok head) :
    NoOpening head := by
  obtain ⟨parts, hparts, rfl⟩ := map_eq_ok h
  obtain ⟨hnone, rfl⟩ | ⟨own, opened, rfl, hcut, -⟩ := templateParts_eq_ok_iff.mp hparts
  · rintro ⟨x, y, hxy⟩
    have hhas : rep.has "<(".toList = true := Text.has_iff.mpr ⟨x, y, hxy⟩
    rw [Text.has, hnone] at hhas
    cases hhas
  · exact noOpening_of_cut? hcut

theorem templateParts_block (back : Text) {front : Text} {args : List Text}
    (hfront : NoOpening front) (hargs : ∀ a ∈ args, Balanced a) :
    templateParts (front ++ angled args ++ back) =
      .ok (some ⟨front, Text.commaJoin args, back⟩) := by
  have hcut := cut?_of_noOpening hfront (Text.commaJoin args ++ ")>".toList ++ back)
  refine templateParts_of_closed ?_ (balanced_commaJoin hargs)
  rw [← hcut]
  simp [angled]

/-- The parts of a template name are found again. -/
theorem template_angled (back : Text) {front : Text} {args : List Text} (hfront : NoOpening front)
    (hargs : ∀ a ∈ args, Listable a) (hne : ∀ a ∈ args, a ≠ []) :
    templateStem (front ++ angled args ++ back) = .ok front ∧
      templateArguments (front ++ angled args ++ back) = .ok args ∧
      templateTail (front ++ angled args ++ back) = .ok back := by
  have hparts := templateParts_block back hfront fun a ha => (hargs a ha).balanced
  have hlisted : TemplateParts.arguments ⟨front, Text.commaJoin args, back⟩ = args :=
    listed_commaJoin hargs hne
  refine ⟨?_, ?_, ?_⟩
  · rw [templateStem, hparts]
    rfl
  · rw [templateArguments, hparts]
    exact congrArg Except.ok hlisted
  · rw [templateTail, hparts]
    rfl

theorem isTemplate_angled (front back : Text) (args : List Text) :
    isTemplate (front ++ angled args ++ back) = true :=
  Text.has_iff.mpr ⟨front, Text.commaJoin args ++ ")>".toList ++ back, by simp [angled]⟩

theorem notMem_less_path (h : ∀ n ∈ path, IsComponent n) : '<' ∉ pathText path :=
  (bare_path h).notMem (by decide)

theorem texts_ne_nil {ts : List Pieces} (joined : ∀ t ∈ ts, t ≠ [] ∧ Joined t)
    (proper : ∀ t ∈ ts, ∀ p ∈ t, p.Proper) : ∀ a ∈ piecesTexts ts, a ≠ [] := by
  rw [piecesTexts_eq]
  intro a ha
  obtain ⟨t, ht, rfl⟩ := List.mem_map.mp ha
  exact IsType.text_ne_nil ⟨(joined t ht).2, proper t ht⟩ (joined t ht).1

/-- A template name with another name in front, where it begins with `pat`. -/
def renamedHead (pat rep element : Text) : Except Fault Text :=
  if element.startsWith pat then (templateStem rep).map fun s => element.replaceFirstWhole pat s
  else .ok element

theorem renameTemplate_eq (pat rep : Text) (again : CType → Except Fault CType) (element : Text) :
    renameTemplate pat rep again element = renamedHead pat rep element >>= fun renamed => do
      let stem ← templateStem renamed
      let args ← (← templateArguments renamed).mapM again
      return stem ++ angled args ++ (← templateTail renamed) := by
  unfold renameTemplate renamedHead
  split
  · cases templateStem rep <;> rfl
  · rfl

theorem renameTemplate_of_head {rep element back front : Text} {as : List Text}
    {again : CType → Except Fault CType} (hfront : NoOpening front)
    (hhead : renamedHead pat rep element = .ok (front ++ angled as ++ back))
    (has : ∀ a ∈ as, Listable a) (hne : ∀ a ∈ as, a ≠ []) :
    renameTemplate pat rep again element =
      (as.mapM again).map fun bs => front ++ angled bs ++ back := by
  obtain ⟨hstem, harguments, htail⟩ := template_angled back hfront has hne
  rw [renameTemplate_eq, hhead]
  show (templateStem _ >>= fun stem => templateArguments _ >>= fun args =>
    args.mapM again >>= fun args => templateTail _ >>= fun tail => _) = _
  rw [hstem, harguments, htail]
  show (as.mapM again >>= _) = _
  cases as.mapM again <;> rfl

theorem kind_fixed {e : Text} (h : e.startsWith "f(".toList = false ∧
    e.startsWith "a(".toList = false) : Kind.of e ≠ .function ∧ Kind.of e ≠ .array := by
  unfold Kind.of
  simp only [h.1, h.2, Bool.false_and, Bool.false_eq_true, if_false]
  split_ifs <;> simp

theorem renameElement_word {rep : Text} {again : CType → Except Fault CType} (hn : IsComponent n) :
    renameElement pat rep again n = .ok (if n = pat then rep else n) := by
  unfold renameElement
  rw [if_pos (isSimple_unbracketed hn.1.unbracketed)]
  split
  · rfl
  · rw [isTemplate_unbracketed hn.1.unbracketed, if_neg Bool.false_ne_true,
      QualifiedName.cutFirst?_eq_none hn.1.unbracketed hn.2]
    rfl

theorem length_lt_path {m : Text} : (pathText [n]).length < (pathText (n :: m :: path)).length ∧
    (pathText (m :: path)).length < (pathText (n :: m :: path)).length := by
  rw [pathText_cons_cons, pathText_singleton]
  simp only [List.length_append, String.length_toList]
  constructor <;>
  · show _ < _ + 2 + _
    omega

theorem renameElement_function {again : CType → Except Fault CType} {rep : Text} {ps : List Pieces}
    (hp : (Piece.function ps).Proper) :
    renameElement pat rep again (Piece.function ps).text =
      ((piecesTexts ps).mapM again).map fun us => written 'f' (Text.commaJoin us) := by
  have hsimple : ¬ isSimple (Piece.function ps).text = true := by
    simp [hp.isSimple_text, Piece.stem?]
  have hkind : Kind.of (Piece.function ps).text = .function := kind_written
  cases hp with
  | function joined proper =>
    have hclosed := closed_piecesTexts fun t ht p hp => (proper t ht p hp).spelled
    have harguments : arguments (Piece.function ps).text = .ok (piecesTexts ps) := by
      rw [Piece.text, arguments_written (by decide)
        (balanced_commaJoin fun a ha => (hclosed a ha).listable.balanced),
        listed_commaJoin (fun a ha => (hclosed a ha).listable) (texts_ne_nil joined proper)]
    rw [renameElement, if_neg hsimple, hkind]
    show (arguments _ >>= fun ps => ps.mapM again >>= _) = _
    rw [harguments]
    show ((piecesTexts ps).mapM again >>= _) = _
    cases (piecesTexts ps).mapM again <;> rfl

theorem Piece.Proper.stacked_parameter {ps : List Pieces} (hp : (Piece.function ps).Proper)
    (ht : t ∈ ps) : Stacked t := by
  cases hp with
  | function joined proper => exact IsType.stacked ⟨(joined t ht).2, proper t ht⟩

theorem Piece.Proper.stacked_argument {stem : List Text} {args : List Pieces} {tail : Text}
    (hp : (Piece.template stem args tail).Proper) (ht : t ∈ args) : Stacked t := by
  cases hp with
  | template _ _ joined proper => exact IsType.stacked ⟨(joined t ht).2, proper t ht⟩

theorem stacked_name (hne : path ≠ []) (hcomponents : ∀ n ∈ path, IsComponent n) :
    Stacked [.name path] :=
  ⟨List.forall_mem_nil _, List.forall_mem_singleton.mpr (.name hne hcomponents),
    List.forall_mem_singleton.mpr (Or.inr rfl)⟩

theorem length_lt_function {ps : List Pieces} (ht : t ∈ ps) :
    (piecesText t).length < (Piece.function ps).text.length := by
  have hle := (infix_commaJoin (mem_piecesTexts ht)).length_le
  simp only [Piece.text, written, List.length_cons, List.length_append]
  omega

theorem length_lt_template {stem : List Text} {args : List Pieces} {tail : Text} (ht : t ∈ args) :
    (piecesText t).length < (Piece.template stem args tail).text.length := by
  have hle := (infix_commaJoin (mem_piecesTexts ht)).length_le
  simp only [Piece.text, angled, List.length_append]
  show _ < _ + (2 + _ + 2) + _
  omega

theorem renameElement_fixed {again : CType → Except Fault CType} {rep e : Text}
    (hp : (Piece.fixed e).Proper) : renameElement pat rep again e = .ok e := by
  cases hp with
  | fixed closed ends simple kind =>
    obtain ⟨hfunction, harray⟩ := kind_fixed kind
    rw [renameElement, if_neg (by simp [simple])]
    split
    · exact absurd ‹_› hfunction
    · exact absurd ‹_› harray
    · rfl

/-- The types inside an element are renamed one by one. -/
theorem mapM_piecesTexts {again : CType → Except Fault CType} {ts : List Pieces}
    {renamed : Pieces → Text} (h : ∀ t ∈ ts, again (piecesText t) = .ok (renamed t)) :
    (piecesTexts ts).mapM again = .ok (ts.map renamed) := by
  refine mapM_of_forall₂ ?_
  rwa [piecesTexts_eq, List.forall₂_map_left_iff, List.forall₂_map_right_iff, List.forall₂_same]

theorem length_lt_budget (t rep : Text) : t.length < (t.length + 1) * (rep.length + 2) := by
  have hle := Nat.le_mul_of_pos_right (t.length + 1) (by omega : 0 < rep.length + 2)
  omega

section Name

variable (hpat : IsIdentifier pat)
include hpat

/-- The letter of an array element is a word of its text. -/
theorem replaceWhole_array (d rep : Text) :
    (written 'a' d).replaceWhole pat rep = (if ['a'] = pat then rep else ['a']) ++
      '(' :: (d.mapWords (fun w => if w = pat then rep else w) ++ ").".toList) := by
  have hparts : written 'a' d = ['a'] ++ '(' :: (d ++ ')' :: ['.']) := by simp [written]
  rw [Text.replaceWhole_eq_mapWords hpat, hparts, Text.mapWords_break rfl, Text.mapWords_break rfl]
  simp [Text.mapWords, Text.mapWordsFrom, Text.mapWord, show isIdentChar 'a' = true from rfl,
    show isIdentChar '.' = false from rfl]

/-- A bare text is the name itself only where it is its only component. -/
theorem pathText_eq_iff (hne : path ≠ []) : pathText path = pat ↔ path = [pat] := by
  refine ⟨fun h => ?_, fun h => by rw [h, pathText_singleton]⟩
  obtain ⟨n, path, rfl⟩ := List.exists_cons_of_ne_nil hne
  cases path with
  | nil => rw [← h, pathText_singleton]
  | cons m path =>
    have hcolon : ':' ∈ pat := by
      rw [← h, pathText_cons_cons]
      simp
    cases hpat.2 ':' hcolon

/-- The outermost scope of a name and what stands in it are renamed apart. -/
theorem renameElement_scoped {rep m a b : Text} {again : CType → Except Fault CType}
    (hcomponents : ∀ c ∈ n :: m :: path, IsComponent c) (ha : again n = .ok a)
    (hb : again (pathText (m :: path)) = .ok b) :
    renameElement pat rep again (pathText (n :: m :: path)) = .ok (a ++ "::".toList ++ b) := by
  have hbare := (bare_path hcomponents).unbracketed
  have hn := hcomponents n List.mem_cons_self
  have hother : pathText (n :: m :: path) ≠ pat := fun he => by
    cases (pathText_eq_iff hpat (List.cons_ne_nil _ _)).mp he
  unfold renameElement
  rw [if_pos (isSimple_unbracketed hbare), if_neg hother, isTemplate_unbracketed hbare,
    if_neg Bool.false_ne_true, pathText_cons_cons, QualifiedName.cutFirst?_append hn.1.unbracketed
    hn.2]
  dsimp only
  rw [ha, hb]
  rfl

theorem renameElement_array {again : CType → Except Fault CType} {rep d : Text}
    (hp : (Piece.array d).Proper) :
    renameElement pat rep again (written 'a' d) = .ok ((if ['a'] = pat then rep else ['a']) ++
      '(' :: (d.mapWords (fun w => if w = pat then rep else w) ++ ").".toList)) := by
  have hsimple : ¬ isSimple (written 'a' d) = true := by
    simpa [Piece.text, Piece.stem?] using hp.isSimple_text
  rw [renameElement, if_neg hsimple, kind_written, ← replaceWhole_array hpat]
  rfl

theorem renameElement_template {again : CType → Except Fault CType} {rep tail : Text}
    {stem : List Text} {args : List Pieces} (hp : (Piece.template stem args tail).Proper) :
    renameElement pat rep again (Piece.template stem args tail).text =
      renameTemplate pat rep again (Piece.template stem args tail).text := by
  have hless : '<' ∈ (Piece.template stem args tail).text := by simp [Piece.text, angled]
  have hother : (Piece.template stem args tail).text ≠ pat := fun he => by
    cases hpat.2 '<' (he ▸ hless)
  have htemplate : isTemplate (Piece.template stem args tail).text = true := isTemplate_angled ..
  rw [renameElement, if_pos (show isSimple _ = true from hp.isSimple_text), if_neg hother,
    if_pos htemplate]

/-- A template name is renamed in front and in its arguments; what stands behind them stays. -/
theorem renameElement_of_head {again : CType → Except Fault CType} {rep tail front back : Text}
    {stem : List Text} {args : List Pieces} (hp : (Piece.template stem args tail).Proper)
    (hfront : NoOpening front) (hhead : renamedHead pat rep (Piece.template stem args tail).text =
      .ok (front ++ angled (piecesTexts args) ++ back)) :
    renameElement pat rep again (Piece.template stem args tail).text =
      ((piecesTexts args).mapM again).map fun bs => front ++ angled bs ++ back := by
  rw [renameElement_template hpat hp]
  cases hp with
  | template nonempty components joined proper closed ends simple =>
    have hclosed := closed_piecesTexts fun t ht p hp => (proper t ht p hp).spelled
    exact renameTemplate_of_head hfront hhead (fun a ha => (hclosed a ha).listable)
      (texts_ne_nil joined proper)

/-- Where the type is the name itself, the walk over its elements renames the only one. -/
theorem concatMap_own {rep : Text} {budget : Nat} :
    (concatMap pat fun e => renameElement pat rep (renameFrom pat rep budget) e.1 :
      Except Fault Text) = .ok rep := by
  have hword : Unbracketed pat := hpat.isWord.unbracketed
  have hown : renameElement pat rep (renameFrom pat rep budget) pat = .ok rep := by
    rw [renameElement, if_pos (isSimple_unbracketed hword), if_pos rfl]
    rfl
  have hsingle : elements pat = .ok [pat] := elements_of_past (past_plain hword) hpat.1
  rw [concatMap_eq_mapM hsingle, mapM_of_forall₂ (.cons hown .nil)]
  exact congrArg Except.ok (List.append_nil rep)

/-- A type that holds the name is renamed element by element. -/
theorem renameFrom_succ {rep : Text} {budget : Nat} (ht : Stacked t) (hin : pat <:+: piecesText t) :
    renameFrom pat rep (budget + 1) (piecesText t) =
      ((t.map Piece.text).mapM (renameElement pat rep (renameFrom pat rep budget))).map
        List.flatten := by
  have hhas : (decide (pat = []) || !(piecesText t).has pat) = false := by
    rw [Text.has_iff.mpr hin, decide_eq_false hpat.1]
    rfl
  have hne : piecesText t ≠ [] := fun hnil => hpat.1 (List.infix_nil.mp (hnil ▸ hin))
  have hconcat : (concatMap (piecesText t) fun e =>
      renameElement pat rep (renameFrom pat rep budget) e.1 : Except Fault Text) = _ :=
    concatMap_eq_mapM (ht.isType hne).elements
  unfold renameFrom
  rw [hhas, if_neg Bool.false_ne_true]
  split
  · rename_i heq
    rw [heq, concatMap_own hpat] at hconcat
    exact hconcat
  · exact hconcat

/-- A type is renamed where its elements are. -/
theorem renameFrom_of_elements {rep : Text} {budget : Nat} {renamed : Piece → Text}
    (ht : Stacked t) (hkept : ∀ p ∈ t, ¬ pat <:+: p.text → renamed p = p.text)
    (hall : ∀ p ∈ t, renameElement pat rep (renameFrom pat rep budget) p.text = .ok (renamed p)) :
    renameFrom pat rep (budget + 1) (piecesText t) = .ok (t.map renamed).flatten := by
  by_cases hin : pat <:+: piecesText t
  · have hforall : List.Forall₂ (fun e u => renameElement pat rep (renameFrom pat rep budget) e =
        .ok u) (t.map Piece.text) (t.map renamed) := by
      rwa [List.forall₂_map_left_iff, List.forall₂_map_right_iff, List.forall₂_same]
    rw [renameFrom_succ hpat ht hin, mapM_of_forall₂ hforall]
    rfl
  · have hhas : (decide (pat = []) || !(piecesText t).has pat) = true := by
      rw [Bool.eq_false_iff.mpr fun h => hin (Text.has_iff.mp h)]
      exact Bool.or_true _
    have hsame : t.map renamed = t.map Piece.text := List.map_congr_left fun p hp =>
      hkept p hp fun h => hin (h.trans (infix_of_mem_pieces hp))
    unfold renameFrom
    rw [hhas, if_pos rfl, hsame, ← piecesText_eq]
    rfl

end Name

end CType

end BindingTypes
