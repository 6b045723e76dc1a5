import BindingTypes.Proofs.CType.Marks
import BindingTypes.Proofs.Declaration.Grammar
import BindingTypes.Proofs.Declaration.Lexing
import BindingTypes.Proofs.Declaration.Specifiers

namespace BindingTypes.Declaration

open CType

/-- The tokens of a constructor that is written in front of what it is applied to. -/
structure IsOperator (ows : List Text) (e : Text) : Prop where
  reads : ReadsOperator ows e
  opens : OpensGroup ows
  ends : ∀ ts T, Spells ts ows → EndsSpecifiers (ts ++ T)
  ne_nil : ows ≠ []

/-- Specifiers end where these tokens stand. -/
def Leads (ws : List Text) : Prop := ∀ ts R, Spells ts ws → Closes R → EndsSpecifiers (ts ++ R)

/-- How a constructor is written, and that it is read back. -/
inductive Writes (source : Text) : Constructor → Mark → Prop
  | operator {c : Constructor} {s : Text} {ows : List Text} (h : IsOperator ows c.text)
      (hs : Lexes s ows) (hend : ∀ d, s.getLast? = some d → isIdentChar d = false)
      (hc : isQualifierElement c = false) : Writes source c (.operator s)
  | qualifier {w : Text} (hw : w ∈ qualifierWords) :
      Writes source (.qualifier w) (.lead (w ++ [' ']))
  | suffix {c : Constructor} {s : Text} {vs : List Text} (h : ReadsSuffix source vs c.text)
      (hs : Lexes s vs) (hstart : ∀ d, s.head? = some d → isIdentChar d = false)
      (hc : isSuffixElement c = true) : Writes source c (.suffix s)

variable {source out id w s bt : Text} {ws wsb : List Text} {ns : List Text} {cs : List Constructor}
  {ms : List Mark} {c b : CType} {d : Constructor} {m : Mark}

theorem isOperator_pointer : IsOperator [['*']] "p.".toList where
  reads := reads_pointer
  opens := opensGroup_pointer
  ends ts T hts := by
    obtain ⟨offset, ts', rfl, -⟩ := hts.cons
    exact endsSpecifiers_cons (by decide) (by decide) (by decide)
  ne_nil := by simp

theorem isOperator_reference : IsOperator [['&']] "r.".toList where
  reads := reads_reference
  opens := opensGroup_reference
  ends ts T hts := by
    obtain ⟨offset, ts', rfl, -⟩ := hts.cons
    exact endsSpecifiers_cons (by decide) (by decide) (by decide)
  ne_nil := by simp

theorem isOperator_owner (hns : ∀ n ∈ ns, IsFreeName n) (hne : ns ≠ []) :
    IsOperator (pathWords ns ++ ["::".toList, ['*']]) (CType.written 'm' (pathText ns)) where
  reads := reads_owner hns hne
  opens := opensGroup_owner hns hne
  ends ts T hts := by
    obtain ⟨n, hn, offset, ts', rfl⟩ := owner_cons hne hts
    exact (hns n hn).endsSpecifiers
  ne_nil := by simp

theorem Lexes.single (hw : w ≠ []) (hchars : ∀ c ∈ w, isIdentChar c = true) : Lexes w [w] := by
  have hword := Lexes.word hw hchars (t := []) (by simp) .nil
  rwa [List.append_nil] at hword

theorem Lexes.lead (hs : Lexes s ws) (hout : Lexes out wsb) :
    Lexes (s ++ ' ' :: out) (ws ++ wsb) :=
  hs.append_of_head (.space rfl hout) fun d hd => by
    cases hd
    rfl

theorem lexes_qualifier (hw : w ∈ qualifierWords) : Lexes w [w] := by
  have hall : (qualifierWords.all fun w => w ≠ [] && w.all isIdentChar) = true := by decide
  have hcase := List.all_eq_true.mp hall w hw
  simp only [Bool.and_eq_true, decide_eq_true_eq] at hcase
  exact .single hcase.1 (List.all_eq_true.mp hcase.2)

theorem Direct.leads (h : Direct source ws c) : Leads ws :=
  fun ts R hts hR => h.ends ts R hts hR.tail

theorem IsOperator.leads {ows : List Text} {e : Text} (h : IsOperator ows e) (ws : List Text) :
    Leads (ows ++ ws) := by
  intro ts R hts _
  obtain ⟨ts₁, ts₂, rfl, h₁, -⟩ := hts.append
  rw [List.append_assoc]
  exact h.ends ts₁ (ts₂ ++ R) h₁

/-- No suffix follows a qualifier. -/
theorem noSuffix_behind_qualifier (h : List.Forall₂ (Writes source) cs ms)
    (horder : (Constructor.qualifier w :: cs).IsChain fun c d =>
      isQualifierElement c = true → isSuffixElement d = false) :
    (ms.head?.map Mark.isSuffix).getD false = false := by
  cases h with
  | nil => rfl
  | @cons d m cs ms hd _ =>
    have hother : isSuffixElement d = false := (List.isChain_cons_cons.mp horder).1 rfl
    cases hd with
    | operator => rfl
    | qualifier => rfl
    | suffix _ _ _ hc =>
      rw [hc] at hother
      cases hother

/-- A declarator is read back from the marks it is assembled of. Behind an operator that a suffix
follows the operator is in brackets, so what the suffix applies to is always direct. -/
theorem assemble_reads (h : List.Forall₂ (Writes source) cs ms)
    (horder : cs.IsChain fun c d => isQualifierElement c = true → isSuffixElement d = false)
    (hlast : ∀ w, cs.getLast? ≠ some (.qualifier w)) (hout : Lexes out ws)
    (hd : Declares source ws c)
    (hdirect : (ms.head?.map Mark.isSuffix).getD false = true → Direct source ws c)
    (hleads : cs = [] → Leads ws) :
    ∃ ws', Lexes (assemble ms out) ws' ∧
      Declares source ws' (c ++ (cs.map Constructor.text).flatten) ∧ Leads ws' := by
  -- the outermost element first: `out`, its tokens and the elements it declares grow
  induction h generalizing out ws c with
  | nil => exact ⟨ws, hout, by simpa using hd, hleads rfl⟩
  | @cons e m cs ms hw hrest ih =>
    have hlast' : ∀ w, cs.getLast? ≠ some (.qualifier w) := by
      intro w hcs
      refine hlast w ?_
      rw [List.getLast?_cons, hcs]
      rfl
    have horder' := horder.tail
    have htext : ∀ c, c ++ ((e :: cs).map Constructor.text).flatten =
        c ++ e.text ++ (cs.map Constructor.text).flatten := by simp
    rw [htext]
    cases hw with
    | @operator _ s ows hop hs hend hc =>
      have hbody : Lexes (s ++ out) (ows ++ ws) := hs.append hout fun c d hlast _ hident => by
        rw [hend c hlast] at hident
        cases hident
      rw [assemble]
      cases hnext : (ms.head?.map Mark.isSuffix).getD false with
      | true =>
        have hgroup := Direct.group hd hop.reads hop.ne_nil hop.opens
        have hbrackets : Lexes ('(' :: s ++ out ++ [')']) (['('] :: (ows ++ ws) ++ [[')']]) :=
          hbody.between (by decide) (by decide)
        exact ih horder' hlast' hbrackets hgroup.declares (fun _ => hgroup) fun _ => hgroup.leads
      | false =>
        have hreads := hd.operator hop.reads hop.ne_nil
        refine ih horder' hlast' hbody hreads (fun hsuffix => ?_) fun _ => hop.leads ws
        rw [hnext] at hsuffix
        cases hsuffix
    | @qualifier w hw =>
      have hbody := (lexes_qualifier hw).lead hout
      have hreads := hd.operator (reads_qualifier hw) (by simp)
      have hne : cs ≠ [] := by
        rintro rfl
        exact hlast w rfl
      have hplain := noSuffix_behind_qualifier hrest horder
      have hwhole := ih horder' hlast' hbody hreads (fun hsuffix => ?_) fun hnil => absurd hnil hne
      · simpa [assemble, Constructor.text] using hwhole
      · rw [hplain] at hsuffix
        cases hsuffix
    | @suffix _ s vs hread hs hstart hc =>
      have hsuffix := (hdirect rfl).suffix hread
      have hbody : Lexes (out ++ s) (ws ++ vs) := hout.append_of_head hs hstart
      exact ih horder' hlast' hbody hsuffix.declares (fun _ => hsuffix) fun _ => hsuffix.leads

theorem forall₂_concat {α β : Type} {R : α → β → Prop} {as : List α} {a : α} {bs : List β}
    (h : List.Forall₂ R (as ++ [a]) bs) :
    ∃ bs' b, bs = bs' ++ [b] ∧ List.Forall₂ R as bs' ∧ R a b := by
  induction as generalizing bs with
  | nil =>
    cases h with
    | cons hab hnil =>
      cases hnil
      exact ⟨[], _, rfl, .nil, hab⟩
  | cons a' as ih =>
    cases h with
    | @cons _ b' _ bs hab h =>
      obtain ⟨bs', b, rfl, has, hlast⟩ := ih h
      exact ⟨b' :: bs', b, rfl, .cons hab has, hlast⟩

/-- The qualifier in front of the base is read with the base. -/
theorem qualifiers_last (h : List.Forall₂ (Writes source) cs ms)
    (hlast : ∀ ds w w', cs ≠ ds ++ [.qualifier w, .qualifier w']) :
    ∃ ds ms' q, cs = ds ++ q.map Constructor.qualifier ∧
      ms = ms' ++ q.map (fun w => .lead (w ++ [' '])) ∧ IsQualifiers q ∧
      List.Forall₂ (Writes source) ds ms' ∧ ∀ w, ds.getLast? ≠ some (.qualifier w) := by
  by_cases hplain : ∀ w, cs.getLast? ≠ some (.qualifier w)
  · exact ⟨cs, ms, [], by simp, by simp, Or.inl rfl, h, hplain⟩
  · simp only [not_forall, not_not] at hplain
    obtain ⟨w, hw⟩ := hplain
    obtain ⟨ds, rfl⟩ := List.getLast?_eq_some_iff.mp hw
    obtain ⟨ms', m, rfl, hds, hm⟩ := forall₂_concat h
    have hrest : ∀ w', ds.getLast? ≠ some (.qualifier w') := by
      intro w' hw'
      obtain ⟨init, rfl⟩ := List.getLast?_eq_some_iff.mp hw'
      exact hlast init w' w (by simp)
    cases hm with
    | operator _ _ _ hc => cases hc
    | qualifier hw => exact ⟨ds, ms', [w], by simp, by simp, Or.inr ⟨w, hw, rfl⟩, hds, hrest⟩
    | suffix _ _ _ hc => cases hc

theorem declared_name (source : Text) (hid : id = [] ∨ IsFreeName id) :
    ∃ ws, Lexes id ws ∧ Direct source ws [] := by
  rcases hid with rfl | hid
  · exact ⟨[], .nil, Direct.unnamed⟩
  · exact ⟨[id], .single hid.ne_nil hid.chars, Direct.named hid⟩

/-- A whole declaration is read back. -/
theorem declaration_reads (h : List.Forall₂ (Writes source) cs ms)
    (horder : cs.IsChain fun c d => isQualifierElement c = true → isSuffixElement d = false)
    (hlast : ∀ ds w w', cs ≠ ds ++ [.qualifier w, .qualifier w']) (hb : ReadsBase source wsb b)
    (hbt : Lexes bt wsb) (hid : id = [] ∨ IsFreeName id) :
    ∃ ws, Lexes (assemble (ms ++ [.lead (bt ++ [' '])]) id).trimEnd ws ∧
      ReadsDeclaration source ws (chain cs b) := by
  obtain ⟨ds, ms', q, rfl, rfl, hq, hds, hplain⟩ := qualifiers_last h hlast
  obtain ⟨ws₀, hlex, hdirect⟩ := declared_name source hid
  obtain ⟨ws, hbody, hreads, hends⟩ := assemble_reads hds (horder.left_of_append) hplain hlex
    hdirect.declares (fun _ => hdirect) fun _ => hdirect.leads
  have hc : (ds.map Constructor.text).flatten = [] ∨
      (ds.map Constructor.text).flatten.getLast? = some '.' := by
    rcases List.eq_nil_or_concat ds with rfl | ⟨init, d, rfl⟩
    · exact Or.inl rfl
    · right
      simp [List.getLast?_append, text_getLast?]
  refine ⟨wsb ++ q ++ ws, Lexes.trimEnd ?_, ?_⟩
  · rw [assemble_lead]
    rcases hq with rfl | ⟨w, hw, rfl⟩
    · simpa using hbt.lead hbody
    · have hqualifier := hbt.lead ((lexes_qualifier hw).lead hbody)
      rw [List.map_singleton, assemble_lead]
      simpa using hqualifier
  · have hwhole := hb.declaration hq hreads hends hc
    have hchain : chain (ds ++ q.map Constructor.qualifier) b =
        (ds.map Constructor.text).flatten ++ qualified q b := by
      simp [chain, qualified, Function.comp_def, Constructor.text]
    rwa [hchain]

end BindingTypes.Declaration
