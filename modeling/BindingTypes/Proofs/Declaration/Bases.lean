import BindingTypes.Proofs.Declaration.Assembly

namespace BindingTypes.Declaration

open CType

variable {source n x stem : Text} {ws xs : List Text} {wss : List (List Text)} {ns ss before after : List Text}
  {tag : Option Text} {types : List CType} {b : Base} {R : List Text → CType → Prop}

/-- Each type has a spelling, and its tokens are read back. -/
theorem exists_spellings (h : ∀ t ∈ types, ∃ s ws, spelling t = .ok s ∧ Lexes s ws ∧ R ws t) :
    ∃ ss wss, List.Forall₂ (fun t s => spelling t = .ok s) types ss ∧
      List.Forall₂ Lexes ss wss ∧ List.Forall₂ R wss types := by
  induction types with
  | nil => exact ⟨[], [], .nil, .nil, .nil⟩
  | cons t types ih =>
    obtain ⟨ht, htypes⟩ := List.forall_mem_cons.mp h
    obtain ⟨s, ws, hs, hlex, hread⟩ := ht
    obtain ⟨ss, wss, hss, hlexes, hreads⟩ := ih htypes
    exact ⟨s :: ss, ws :: wss, .cons hs hss, .cons hlex hlexes, .cons hread hreads⟩

theorem lexes_commaJoin (h : List.Forall₂ Lexes ss wss) :
    Lexes (Text.commaJoin ss) (listWords wss) := by
  induction h with
  | nil => exact .nil
  | @cons s ws ss wss hs hrest ih =>
    cases hrest with
    | nil => simpa [Text.commaJoin, listWords] using hs
    | @cons s' ws' ss wss _ _ =>
      have hcomma : Lexes (',' :: Text.commaJoin (s' :: ss)) ([','] :: listWords (ws' :: wss)) :=
        .symbol (by decide) ih
      have hboth := hs.append_of_head hcomma fun d hd => by
        cases hd
        rfl
      rw [listWords_cons _ (by simp), Text.commaJoin, List.intercalate_cons_cons]
      simpa [Text.commaJoin] using hboth

theorem lexes_spaced (h : ∀ w ∈ ws, w ≠ [] ∧ ∀ c ∈ w, isIdentChar c = true) :
    Lexes (List.intercalate [' '] ws) ws := by
  induction ws with
  | nil => exact .nil
  | cons w ws ih =>
    obtain ⟨⟨hne, hchars⟩, hws⟩ := List.forall_mem_cons.mp h
    have hw := Lexes.single hne hchars
    cases ws with
    | nil => simpa using hw
    | cons v ws =>
      have hboth := hw.lead (ih hws)
      rw [List.intercalate_cons_cons]
      simpa using hboth

/-- A name in front of what is no part of it. -/
theorem lexes_name (hn : IsFreeName n) (hx : Lexes x xs)
    (hnext : ∀ c, x.head? = some c → isIdentChar c = false) : Lexes (n ++ x) (n :: xs) :=
  .word hn.ne_nil hn.chars hnext hx

theorem lexes_before (hns : ∀ n ∈ ns, IsFreeName n) (hx : Lexes x xs) :
    Lexes (ns.flatMap (· ++ "::".toList) ++ x)
      ((ns.map ([·])).flatMap (· ++ ["::".toList]) ++ xs) := by
  induction ns with
  | nil => exact hx
  | cons n ns ih =>
    obtain ⟨hn, hns⟩ := List.forall_mem_cons.mp hns
    have hrest := lexes_name hn (Lexes.colons (ih hns)) fun c hc => by
      cases hc
      rfl
    simpa using hrest

theorem lexes_back (hns : ∀ n ∈ ns, IsFreeName n) :
    Lexes (Base.back ns) ((ns.map ([·])).flatMap (["::".toList] ++ ·)) ∧
      ∀ c, (Base.back ns).head? = some c → isIdentChar c = false := by
  induction ns with
  | nil => exact ⟨.nil, by simp [Base.back]⟩
  | cons n ns ih =>
    obtain ⟨hn, hns⟩ := List.forall_mem_cons.mp hns
    obtain ⟨hlex, hhead⟩ := ih hns
    have hrest := Lexes.colons (lexes_name hn hlex hhead)
    refine ⟨by simpa [Base.back] using hrest, fun c hc => ?_⟩
    cases hc
    rfl

theorem lexes_path (hns : ∀ n ∈ ns, IsFreeName n) : Lexes (pathText ns) (pathWords ns) := by
  induction ns with
  | nil => exact .nil
  | cons n ns ih =>
    obtain ⟨hn, hns⟩ := List.forall_mem_cons.mp hns
    cases ns with
    | nil => simpa [pathText, pathWords] using Lexes.single hn.ne_nil hn.chars
    | cons m ns =>
      have hrest := lexes_name hn (Lexes.colons (ih hns)) fun c hc => by
        cases hc
        rfl
      rw [pathText, List.intercalate_cons_cons]
      simpa [pathText, pathWords] using hrest

def tagWords (tag : Option Text) : List Text := tag.toList

theorem lexes_tag (htag : ∀ w ∈ tag, w ∈ typeTags) (hx : Lexes x xs) :
    Lexes (Base.tagText tag ++ x) (tagWords tag ++ xs) := by
  cases tag with
  | none => exact hx
  | some w =>
    have hall : (typeTags.all fun w => w ≠ [] && w.all isIdentChar) = true := by decide
    have hw := List.all_eq_true.mp hall w (htag w rfl)
    simp only [Bool.and_eq_true, decide_eq_true_eq] at hw
    have hlead := (Lexes.single hw.1 (List.all_eq_true.mp hw.2)).lead hx
    simpa [Base.tagText, tagWords] using hlead

/-- The tokens of a name, one component of which has more tokens than its stem. -/
theorem lexes_named (htag : ∀ w ∈ tag, w ∈ typeTags)
    (hnames : ∀ n ∈ before ++ stem :: after, IsFreeName n) (hx : Lexes x xs)
    (hnext : ∀ c, x.head? = some c → isIdentChar c = false) :
    Lexes (Base.front tag before stem ++ x ++ Base.back after)
      (tagWords tag ++ nameWords (before.map ([·]) ++ (stem :: xs) :: after.map ([·]))) := by
  obtain ⟨hbefore, hrest⟩ := List.forall_mem_append.mp hnames
  obtain ⟨hstem, hafter⟩ := List.forall_mem_cons.mp hrest
  obtain ⟨hback, hhead⟩ := lexes_back hafter
  have hblock : Lexes (x ++ Base.back after)
      (xs ++ (after.map ([·])).flatMap (["::".toList] ++ ·)) :=
    hx.append_of_head hback hhead
  have hstart : ∀ c, (x ++ Base.back after).head? = some c → isIdentChar c = false := by
    intro c hc
    cases x with
    | nil => exact hhead c hc
    | cons d x => exact hnext c hc
  have hwhole := lexes_tag htag (lexes_before hbefore (lexes_name hstem hblock hstart))
  rw [nameWords, intercalate_around]
  simpa [Base.front] using hwhole

theorem lexes_angled (h : List.Forall₂ Lexes ss wss) :
    Lexes ('<' :: Text.commaJoin ss ++ " >".toList) (['<'] :: (listWords wss ++ [['>']])) := by
  have hclose : Lexes " >".toList [['>']] := .space rfl (.symbol (by decide) .nil)
  refine .symbol (by decide) ((lexes_commaJoin h).append_of_head hclose fun d hd => ?_)
  cases hd
  rfl

theorem readsBase_named (htag : ∀ w ∈ tag, w ∈ typeTags)
    (hbefore : ∀ n ∈ before, IsFreeName n) (hafter : ∀ n ∈ after, IsFreeName n)
    (hc : ReadsComponent source ws x) :
    ReadsBase source (tagWords tag ++ nameWords (before.map ([·]) ++ ws :: after.map ([·])))
      (Base.tagText tag ++ pathText (before ++ x :: after)) := by
  have hplain : ∀ {ns : List Text}, (∀ n ∈ ns, IsFreeName n) →
      List.Forall₂ (ReadsComponent source) (ns.map ([·])) ns := by
    intro ns hns
    exact List.forall₂_map_left_iff.mpr (List.forall₂_same.mpr fun n hn => .plain (hns n hn))
  have hcs := List.rel_append (hplain hbefore) (.cons hc (hplain hafter))
  cases tag with
  | none => exact readsBase_name hcs (by simp)
  | some w =>
    have hall : (typeTags.all fun w => tagKeywords.contains w && w ≠ "typename".toList) = true := by
      decide
    have hw := List.all_eq_true.mp hall w (htag w rfl)
    simp only [Bool.and_eq_true, decide_eq_true_eq] at hw
    have htagged := readsBase_tagged hcs (by simp) (List.contains_iff_mem.mp hw.1) hw.2
    simpa [Base.tagText, tagWords] using htagged

theorem builtin_spelling {words : List Text} (h : words ∈ builtinSpellings) :
    nameSpelling (List.intercalate [' '] words) = .ok (List.intercalate [' '] words) ∧
      Lexes (List.intercalate [' '] words) words ∧
      ReadsBase source words (List.intercalate [' '] words) := by
  have hall : (builtinSpellings.all fun words => words ≠ [] &&
      (words.all fun w => builtinWords.contains w && w ≠ [] && w.all isIdentChar) &&
      canonicalBuiltin words = List.intercalate [' '] words) = true := by decide
  have hwords := List.all_eq_true.mp hall words h
  simp only [Bool.and_eq_true, decide_eq_true_eq, List.all_eq_true, List.contains_iff_mem]
    at hwords
  obtain ⟨⟨hne, hwords⟩, hcanonical⟩ := hwords
  have hreads : ReadsBase source words (canonicalBuiltin words) :=
    readsBase_builtin (fun w hw => (hwords w hw).1.1) hne
  rw [hcanonical] at hreads
  have hless : '<' ∉ List.intercalate [' '] words :=
    notMem_of_isWording (isWording_builtin h) (by decide)
  exact ⟨nameSpelling_plain hless,
    lexes_spaced fun w hw => ⟨(hwords w hw).1.2, (hwords w hw).2⟩, hreads⟩

/-- A base is spelled as it stands, but for its template arguments, and read back. -/
theorem base_spelling (hb : b.IsSpelled)
    (hargs : ∀ a ∈ b.arguments, Listable a ∧ a ≠ [] ∧
      ∃ s ws, spelling a = .ok s ∧ Lexes s ws ∧ ReadsArgument source ws a) :
    ∃ s ws, nameSpelling b.text = .ok s ∧ Lexes s ws ∧ ReadsBase source ws b.text := by
  cases b with
  | builtin words => exact ⟨_, words, builtin_spelling hb⟩
  | named tag before stem arguments after =>
    obtain ⟨hfront, hback⟩ := Base.isWording_named hb
    obtain ⟨htag, hnames⟩ := hb
    obtain ⟨hbefore, hrest⟩ := List.forall_mem_append.mp hnames
    obtain ⟨hstem, hafter⟩ := List.forall_mem_cons.mp hrest
    cases arguments with
    | none =>
      have hlex := lexes_named htag hnames .nil (by simp)
      have hplain : ReadsComponent source [stem] stem := .plain hstem
      have hbase := readsBase_named htag hbefore hafter hplain
      have htext : (Base.named tag before stem none after).text =
          Base.front tag before stem ++ [] ++ Base.back after := Base.text_named ..
      have hcomponent : Base.component stem none = stem := by simp [Base.component]
      have hless : '<' ∉ (Base.named tag before stem none after).text := by
        rw [htext]
        exact notMem_of_isWording (isWording_append (isWording_append hfront rfl) hback) (by decide)
      rw [← htext] at hlex
      rw [← hcomponent] at hbase
      exact ⟨_, _, nameSpelling_plain hless, by simpa only [hcomponent] using hlex, hbase⟩
    | some args =>
      change ∀ a ∈ args, _ at hargs
      obtain ⟨ss, wss, hss, hlexes, hreads⟩ := exists_spellings fun a ha => (hargs a ha).2.2
      have hless : '<' ∉ Base.front tag before stem := notMem_of_isWording hfront (by decide)
      have hspelling : nameSpelling (Base.front tag before stem ++ angled args ++ Base.back after) =
          .ok (Base.front tag before stem ++ '<' :: Text.commaJoin ss ++ " >".toList ++
            Base.back after) :=
        nameSpelling_template hless (fun a ha => (hargs a ha).1) (fun a ha => (hargs a ha).2.1) hss
      have hlex := lexes_named htag hnames (lexes_angled hlexes) fun c hc => by
        cases hc
        rfl
      have hbase := readsBase_named htag hbefore hafter (.template hstem hreads)
      have htext : (Base.named tag before stem (some args) after).text =
          Base.front tag before stem ++ angled args ++ Base.back after := Base.text_named ..
      refine ⟨_, _, ?_, hlex, hbase⟩
      rw [htext, hspelling]
      simp

end BindingTypes.Declaration
