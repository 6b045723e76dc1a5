import BindingTypes.Declaration.Parser
import BindingTypes.Proofs.Outcome
import Mathlib.Data.List.TakeWhile

namespace BindingTypes.Declaration

open CType

def brackets : List Text := [['('], ['['], [')'], [']']]

/-- What is claimed of the tokens behind some open brackets, and of what the rules of the grammar
give where it holds of the tokens they read. -/
structure Kept where
  tokens : List Char → List Token → Prop
  type : CType → Prop
  specified : CType → Prop
  construct : CType → Prop
  base : Text → Prop
  name : Text → Prop
  component : Text → Prop
  owner : Text → Prop
  argument : CType → Prop

namespace Kept

/-- Each rule keeps what is claimed, given that the rules it calls do. -/
structure Closed (K : Kept) : Prop where
  skip : ∀ {st token ts}, K.tokens st (token :: ts) → token.text ∉ brackets → K.tokens st ts
  round : ∀ {st token ts}, K.tokens st (token :: ts) → token.text = ['('] → K.tokens ('(' :: st) ts
  square : ∀ {st token ts}, K.tokens st (token :: ts) → token.text = ['['] → K.tokens ('[' :: st) ts
  endRound : ∀ {st bracket token ts}, K.tokens (bracket :: st) (token :: ts) →
    token.text = [')'] → K.tokens st ts
  endSquare : ∀ {st bracket token ts}, K.tokens (bracket :: st) (token :: ts) →
    token.text = [']'] → K.tokens st ts
  raw : ∀ {st ts source stops w rest}, K.tokens st ts →
    rawUntil source stops 0 false ts = .ok (w, rest) → K.tokens st rest
  copied : ∀ {st ts source stops w rest}, K.tokens st ts →
    rawUntil source stops 0 false ts = .ok (w, rest) → w ≠ [] → K.argument w
  array : ∀ {st ts source stops w rest}, K.tokens st ts →
    rawUntil source stops 0 false ts = .ok (w, rest) → K.construct (written 'a' w)
  ownerWord : ∀ {st token ts}, K.tokens st (token :: ts) → startsName token.text = true →
    K.owner token.text
  ownerScope : ∀ {w o}, K.owner w → K.owner o → K.owner (w ++ "::".toList ++ o)
  ownerOutermost : ∀ {o}, K.owner o → K.owner ("::".toList ++ o)
  word : ∀ {st token ts}, K.tokens st (token :: ts) → startsName token.text = true →
    K.component token.text
  template : ∀ {st token ts args}, K.tokens st (token :: ts) → startsName token.text = true →
    (∀ a ∈ args, K.argument a) → K.component (token.text ++ angled args)
  ends : ∀ {w}, K.component w → K.name w
  scope : ∀ {w b}, K.component w → K.name b → K.name (w ++ "::".toList ++ b)
  outermost : ∀ {b}, K.name b → K.name ("::".toList ++ b)
  named : ∀ {b}, K.name b → K.base b
  tagged : ∀ {w b}, w ∈ tagKeywords → w ≠ "typename".toList → K.name b → K.base (w ++ ' ' :: b)
  builtin : ∀ {ws : List Text}, (∀ w ∈ ws, w ∈ builtinWords) → K.base (canonicalBuiltin ws)
  plain : ∀ {b}, K.base b → K.specified b
  qualified : ∀ {w t}, w ∈ qualifierWords → K.specified t → K.specified (addQualifier t w)
  pushed : ∀ {c t}, K.construct c → K.specified t → K.type (push t c)
  dots : K.type varargs
  typed : ∀ {t}, K.type t → K.argument t
  nil : K.construct []
  append : ∀ {c d}, K.construct c → K.construct d → K.construct (c ++ d)
  pointer : K.construct "p.".toList
  reference : K.construct "r.".toList
  qualifier : ∀ {w}, w ∈ qualifierWords → K.construct (written 'q' w)
  memberPointer : ∀ {o}, K.owner o → K.construct (written 'm' o)
  function : ∀ {types : List CType}, (∀ t ∈ types, K.type t) →
    K.construct (written 'f' (Text.commaJoin types))

/-- A parser that ends well closes the brackets `closes` and gives what `P` says. -/
def Yields (K : Kept) {α : Type} (closes : List Char) (P : α → Prop) (p : Parse α) : Prop :=
  ∀ ⦃st ts r rest⦄, K.tokens (closes ++ st) ts → p ts = .ok (r, rest) → K.tokens st rest ∧ P r

/-- Specifiers that say what is claimed of them. -/
structure Said (K : Kept) (s : Specifiers) : Prop where
  qualifiers : ∀ w ∈ s.qualifiers, w ∈ qualifierWords
  builtin : ∀ w ∈ s.builtin, w ∈ builtinWords
  name : ∀ b ∈ s.name, K.base b

/-- What each rule of the grammar gives within a bound on the nesting. -/
structure Sound (K : Kept) (source : Text) (n : Nat) : Prop where
  declaration : K.Yields [] K.type (declaration source n)
  specifiers : ∀ ⦃s⦄, K.Said s → K.Yields [] K.specified (specifiers source n s)
  qualifiedName : K.Yields [] K.name (qualifiedName source n)
  nameComponents : K.Yields [] K.name (nameComponents source n)
  templateArguments :
    K.Yields [] (fun args => ∀ a ∈ args, K.argument a) (templateArguments source n)
  argumentList : K.Yields [] (fun args => ∀ a ∈ args, K.argument a) (argumentList source n)
  declarator : K.Yields [] K.construct (declarator source n)
  declaratorSuffixes : K.Yields [] K.construct (declaratorSuffixes source n)
  parameters : K.Yields ['('] (fun types => ∀ t ∈ types, K.type t) (parameters source n)
  parameterList : K.Yields ['('] (fun types => ∀ t ∈ types, K.type t) (parameterList source n)

end Kept

variable {K : Kept} {source cs : Text} {c : Char} {n fuel : Nat} {st : List Char} {token : Token}
  {ts rest : List Token} {w : Text} {ws parts : List Text}

theorem notMem_brackets_of_startsName (h : startsName w = true) : w ∉ brackets := by
  intro hm
  simp only [brackets, List.mem_cons, List.not_mem_nil, or_false] at hm
  rcases hm with rfl | rfl | rfl | rfl <;> cases h

theorem notMem_brackets_of_qualifier (h : qualifierWords.contains w = true) : w ∉ brackets := by
  have hall : ∀ w ∈ qualifierWords, w ∉ brackets := by decide
  exact hall w (List.contains_iff_mem.mp h)

theorem isIdentChar_of_isIdentStart (h : isIdentStart c = true) : isIdentChar c = true := by
  rcases Bool.or_eq_true_iff.mp h with halpha | hunderscore
  · exact Bool.or_eq_true_iff.mpr (Or.inl (Bool.or_eq_true_iff.mpr (Or.inl halpha)))
  · exact Bool.or_eq_true_iff.mpr (Or.inr hunderscore)

/-- A token goes on as long as a name does. -/
theorem word_of_isIdentChar (hc : isIdentChar c = true) :
    ∀ d ∈ (c :: cs).take (tokenLength c cs), isIdentChar d = true := by
  have hword : cs.takeWhile isIdentChar = cs.take (cs.takeWhile isIdentChar).length :=
    List.prefix_iff_eq_take.mp (List.takeWhile_prefix isIdentChar)
  rw [tokenLength, if_pos hc, List.take_succ_cons, ← hword]
  refine List.forall_mem_cons.mpr ⟨hc, fun d hd => ?_⟩
  exact List.mem_takeWhile_imp hd

theorem word_of_startsName (h : startsName ((c :: cs).take (tokenLength c cs)) = true) :
    ∀ d ∈ (c :: cs).take (tokenLength c cs), isIdentChar d = true := by
  obtain ⟨k, hk⟩ := Nat.exists_eq_succ_of_ne_zero (Nat.ne_of_gt (tokenLength_pos c cs))
  refine word_of_isIdentChar (isIdentChar_of_isIdentStart ?_)
  rw [hk] at h
  exact h

/-- What every first token of a text is, all its tokens are. -/
theorem forall_mem_tokensFrom {P : Text → Prop}
    (h : ∀ c cs, P ((c :: cs).take (tokenLength c cs))) (cs : Text) (offset : Nat) :
    ∀ token ∈ tokensFrom offset cs, P token.text := by
  fun_induction tokensFrom offset cs with
  | case1 => exact List.forall_mem_nil _
  | case2 offset c cs hspace ih => exact ih
  | case3 offset c cs hspace word ih => exact List.forall_mem_cons.mpr ⟨h c cs, ih⟩

theorem word_of_mem_tokensFrom (cs : Text) (offset : Nat) :
    ∀ token ∈ tokensFrom offset cs, startsName token.text = true →
      ∀ d ∈ token.text, isIdentChar d = true :=
  forall_mem_tokensFrom (P := fun w => startsName w = true → ∀ d ∈ w, isIdentChar d = true)
    (fun _ _ => word_of_startsName) cs offset

theorem forall_mem_ite {P : Text → Prop} {p : Prop} [Decidable p] (hws : ∀ w ∈ ws, P w)
    (hparts : ∀ w ∈ parts, P w) : ∀ w ∈ if p then ws else parts, P w := by
  split
  · exact hws
  · exact hparts

/-- The one spelling of builtin words is of builtin words. -/
theorem canonicalBuiltin_parts (hw : ∀ w ∈ ws, w ∈ builtinWords) : ∃ parts, parts ≠ [] ∧
    (∀ p ∈ parts, p ∈ builtinWords) ∧ canonicalBuiltin ws = List.intercalate [' '] parts := by
  have hcore : ∀ w, coreWord ws = some w → w ∈ builtinWords := fun w h =>
    hw w (List.mem_filter.mp (List.mem_of_getLast? h)).1
  refine ⟨_, fun hnil => ?_, ?_, rfl⟩
  · obtain ⟨hleft, hcores⟩ := List.append_eq_nil_iff.mp hnil
    rw [(List.append_eq_nil_iff.mp hleft).2] at hcores
    split at hcores
    · split at hcores
      · rename_i h
        cases (Bool.and_eq_true_iff.mp h).2
      · cases hcores
    · cases hcores
  · have hone : ∀ w ∈ builtinWords, ∀ v ∈ [w], v ∈ builtinWords := fun w hw =>
      List.forall_mem_singleton.mpr hw
    simp only [List.forall_mem_append]
    refine ⟨⟨?_, ⟨?_, fun w h => hw w (List.mem_filter.mp h).1⟩⟩, ?_⟩
    · exact forall_mem_ite (hone _ (by decide))
        (forall_mem_ite (hone _ (by decide)) (List.forall_mem_nil _))
    · exact forall_mem_ite (hone _ (by decide)) (List.forall_mem_nil _)
    · cases h : coreWord ws with
      | some w => exact forall_mem_ite (List.forall_mem_nil _) (hone w (hcore w h))
      | none => exact forall_mem_ite (hone _ (by decide)) (List.forall_mem_nil _)

theorem eq_cons_of_nextIs (h : nextIs w ts = true) :
    ∃ token rest, ts = token :: rest ∧ token.text = w := by
  cases ts with
  | nil => cases h
  | cons token rest => exact ⟨token, rest, rfl, of_decide_eq_true h⟩

theorem eq_cons_of_opensGroup (h : opensGroup ts = true) :
    ∃ token rest, ts = token :: rest ∧ token.text = ['('] := by
  cases ts with
  | nil => cases h
  | cons token rest =>
    exact ⟨token, rest, rfl, of_decide_eq_true (Bool.and_eq_true_iff.mp h).1⟩

theorem eq_cons_of_expect (h : expect source w ts = .ok rest) :
    ∃ token, ts = token :: rest ∧ token.text = w := by
  unfold expect at h
  split at h
  · split at h
    · rename_i hw
      cases h
      exact ⟨_, rfl, hw⟩
    · cases h
  · cases h

/-- What follows the first item of a list: a comma and more items, or the end of the list. -/
def listTail (source close : Text) (more : Parse (List CType)) (first : CType) :
    Parse (List CType)
  | [] => .error (.unexpectedEnd source)
  | token :: rest =>
    if token.text = [','] then do
      let (others, rest) ← more rest
      return (first :: others, rest)
    else if token.text = close then .ok ([first], rest)
    else .error (.unexpected token.text token.offset source)

/-- The first argument of a list. -/
def firstArgument (source : Text) (n : Nat) : Parse CType := fun tokens =>
  match declaration source n tokens with
  | .ok (type, rest) =>
    if nextIs [','] rest || nextIs ['>'] rest then .ok (type, rest) else rawArgument source tokens
  | .error _ => rawArgument source tokens

/-- A component of a name, with the template arguments behind its word. -/
def nameComponent (source : Text) (n : Nat) (word : Text) : Parse Text := fun tokens =>
  if nextIs ['<'] tokens then
    (templateArguments source n (tokens.drop 1)).map fun r => (word ++ CType.angled r.1, r.2)
  else .ok (word, tokens)

/-- What follows a component of a name: a scope separator and more of the name, or nothing. -/
def nameTail (more : Parse Text) (component : Text) : Parse Text := fun tokens =>
  if nextIs "::".toList tokens && nextStartsName (tokens.drop 1) then
    (more (tokens.drop 1)).map fun r => (component ++ "::".toList ++ r.1, r.2)
  else .ok (component, tokens)

/-- The default value of a parameter is passed over. -/
def passDefault (source : Text) (tokens : List Token) : Except DeclarationError (List Token) :=
  if nextIs ['='] tokens then
    (rawUntil source [[','], [')']] 0 false (tokens.drop 1)).map (·.2)
  else .ok tokens

/-- What a declarator is built around: another one in parentheses, or a name or nothing. -/
def declaredCore (source : Text) (n : Nat) : Parse CType := fun tokens =>
  if opensGroup tokens then do
    let (inner, tokens) ← declarator source n (tokens.drop 1)
    return (inner, ← expect source [')'] tokens)
  else
    match tokens with
    | [] => .ok ([], [])
    | token :: rest =>
      if startsName token.text && !builtinWords.contains token.text then .ok ([], rest)
      else .ok ([], token :: rest)

theorem declarator_eq (source : Text) (n : Nat) (ts : List Token) :
    declarator source (n + 1) ts =
      declaredCore source n (pointers (ts.length + 1) [] ts).2 >>= fun core =>
        declaratorSuffixes source n core.2 >>= fun r =>
          pure (core.1 ++ r.1 ++ (pointers (ts.length + 1) [] ts).1, r.2) := by
  unfold declarator declaredCore
  cases pointers (ts.length + 1) [] ts with
  | mk outer ts =>
    dsimp only
    cases opensGroup ts with
    | true =>
      rw [if_pos rfl, if_pos rfl]
      cases declarator source n (ts.drop 1) with
      | error e => rfl
      | ok r =>
        show (expect source [')'] r.2 >>= _ : Except _ _) = (expect source [')'] r.2 >>= _) >>= _
        cases expect source [')'] r.2 <;> rfl
    | false =>
      cases ts with
      | nil => rfl
      | cons token rest =>
        dsimp only
        cases startsName token.text && !builtinWords.contains token.text <;> rfl

theorem nameComponents_eq (source : Text) (n : Nat) (ts : List Token)
    (hname : startsName token.text = true) :
    nameComponents source (n + 1) (token :: ts) =
      nameComponent source n token.text ts >>= fun r =>
        nameTail (nameComponents source n) r.1 r.2 := by
  unfold nameComponents nameComponent
  dsimp only
  rw [hname, Bool.not_true, if_neg Bool.false_ne_true]
  split
  · cases templateArguments source n (ts.drop 1) <;> rfl
  · rfl

theorem nameComponents_of_not_startsName (source : Text) (n : Nat) (ts : List Token)
    (hname : ¬ startsName token.text = true) : nameComponents source (n + 1) (token :: ts) =
      .error (.unexpected token.text token.offset source) := by
  unfold nameComponents
  dsimp only
  rw [Bool.eq_false_iff.mpr hname, Bool.not_false, if_pos rfl]

/-- The list rules read a first item and then go on alike. -/
theorem argumentList_eq (source : Text) (n : Nat) (ts : List Token) :
    argumentList source (n + 1) ts = firstArgument source n ts >>= fun r =>
      listTail source ['>'] (argumentList source n) r.1 r.2 := by
  unfold argumentList firstArgument
  cases declaration source n ts with
  | ok r =>
    obtain ⟨type, rest⟩ := r
    dsimp only
    cases nextIs [','] rest || nextIs ['>'] rest with
    | true => cases rest <;> rfl
    | false =>
      cases rawArgument source ts with
      | error e => rfl
      | ok r => obtain ⟨a, _ | ⟨token, rest⟩⟩ := r <;> rfl
  | error e =>
    cases rawArgument source ts with
    | error e => rfl
    | ok r => obtain ⟨a, _ | ⟨token, rest⟩⟩ := r <;> rfl

theorem parameterList_eq (source : Text) (n : Nat) (ts : List Token) :
    parameterList source (n + 1) ts = declaration source n ts >>= fun r =>
      passDefault source r.2 >>= listTail source [')'] (parameterList source n) r.1 := by
  unfold parameterList passDefault
  cases declaration source n ts with
  | error e => rfl
  | ok r =>
    obtain ⟨t, rest⟩ := r
    show (if nextIs ['='] rest then _ else _ : Except _ _) = (if _ then _ else _ : Except _ _) >>= _
    split
    · cases rawUntil source [[','], [')']] 0 false (rest.drop 1) with
      | error e => rfl
      | ok r => obtain ⟨a, _ | ⟨token, rest⟩⟩ := r <;> rfl
    · cases rest <;> rfl

namespace Kept

namespace Said

variable {s : Specifiers} (hs : K.Said s)
include hs

theorem qualified (hw : w ∈ qualifierWords) :
    K.Said { s with qualifiers := s.qualifiers ++ [w] } :=
  { hs with
    qualifiers :=
      List.forall_mem_append.mpr ⟨hs.qualifiers, List.forall_mem_singleton.mpr hw⟩ }

theorem worded (hw : w ∈ builtinWords) : K.Said { s with builtin := s.builtin ++ [w] } :=
  { hs with builtin := List.forall_mem_append.mpr ⟨hs.builtin, List.forall_mem_singleton.mpr hw⟩ }

theorem named {b : Text} (hb : K.base b) : K.Said { s with name := some b } :=
  { hs with name := fun _ h => Option.some.inj h ▸ hb }

end Said

namespace Closed

variable (hK : K.Closed)
include hK

theorem pass (h : K.tokens st (token :: ts)) (ht : token.text = w) (hw : w ∉ brackets) :
    K.tokens st ts := hK.skip h (ht ▸ hw)

theorem said {s : Specifiers} {t : CType} (hs : K.Said s) (h : s.type source = .ok t) :
    K.specified t := by
  have hqualified : ∀ {ws : List Text} {b : CType}, (∀ w ∈ ws, w ∈ qualifierWords) →
      K.specified b → K.specified (ws.foldr (fun q t => addQualifier t q) b) := by
    intro ws b hws hb
    induction ws with
    | nil => exact hb
    | cons w ws ih =>
      obtain ⟨hw, hws⟩ := List.forall_mem_cons.mp hws
      exact hK.qualified hw (ih hws)
  unfold Specifiers.type at h
  split at h
  · split at h
    · rename_i name hname
      cases h
      exact hqualified hs.qualifiers (hK.plain (hs.name name hname))
    · cases h
  · cases h
    exact hqualified hs.qualifiers (hK.plain (hK.builtin hs.builtin))

/-- The class of a member pointer is made of names and the scopes between them. -/
theorem memberPath {owner : Text} (hb : K.tokens st ts) (h : memberPath ts = some (owner, rest)) :
    K.tokens st rest ∧ K.owner owner := by
  fun_induction Declaration.memberPath ts generalizing owner with
  | case1 => cases h
  | case2 name colons hname star rest' hstar =>
    cases h
    obtain ⟨hname, hcolons⟩ := Bool.and_eq_true_iff.mp hname
    have hskip := hK.skip hb (notMem_brackets_of_startsName hname)
    have hrest := hK.pass hskip (of_decide_eq_true hcolons) (by decide)
    exact ⟨hK.pass hrest hstar (by decide), hK.ownerWord hb hname⟩
  | case3 name colons hname star rest' hstar ih =>
    obtain ⟨r, hr, he⟩ := Option.map_eq_some_iff.mp h
    cases he
    obtain ⟨hname, hcolons⟩ := Bool.and_eq_true_iff.mp hname
    have hskip := hK.skip hb (notMem_brackets_of_startsName hname)
    obtain ⟨hrest, howner⟩ := ih (hK.pass hskip (of_decide_eq_true hcolons) (by decide)) hr
    exact ⟨hrest, hK.ownerScope (hK.ownerWord hb hname) howner⟩
  | case4 => cases h
  | case5 => cases h

theorem memberPointer? {owner : Text} (hb : K.tokens st ts)
    (h : memberPointer? ts = some (owner, rest)) : K.tokens st rest ∧ K.owner owner := by
  unfold Declaration.memberPointer? at h
  split at h
  · cases h
  · split at h
    · rename_i hcolons
      obtain ⟨r, hr, he⟩ := Option.map_eq_some_iff.mp h
      cases he
      obtain ⟨hrest, howner⟩ := hK.memberPath (hK.pass hb hcolons (by decide)) hr
      exact ⟨hrest, hK.ownerOutermost howner⟩
    · exact hK.memberPath hb h

theorem pointers {inner outer : CType} (hb : K.tokens st ts) (hinner : K.construct inner)
    (h : pointers fuel inner ts = (outer, rest)) : K.tokens st rest ∧ K.construct outer := by
  induction fuel generalizing inner ts with
  | zero =>
    cases h
    exact ⟨hb, hinner⟩
  | succ fuel ih =>
    unfold Declaration.pointers at h
    split at h
    · cases h
      exact ⟨hb, hinner⟩
    · rename_i token ts'
      split at h
      · rename_i hstar
        exact ih (hK.pass hb hstar (by decide)) (hK.append hK.pointer hinner) h
      · split at h
        · rename_i hand
          exact ih (hK.pass hb hand (by decide)) (hK.append hK.reference hinner) h
        · split at h
          · rename_i hq
            exact ih (hK.skip hb (notMem_brackets_of_qualifier hq))
              (hK.append (hK.qualifier (List.contains_iff_mem.mp hq)) hinner) h
          · split at h
            · rename_i owner rest' hm
              obtain ⟨hrest, howner⟩ := hK.memberPointer? hb hm
              exact ih hrest (hK.append (hK.memberPointer howner) hinner) h
            · cases h
              exact ⟨hb, hinner⟩

theorem trailingQualifiers {qualifiers : CType} (hb : K.tokens st ts)
    (h : trailingQualifiers ts = (qualifiers, rest)) :
    K.tokens st rest ∧ K.construct qualifiers := by
  induction ts generalizing qualifiers with
  | nil =>
    cases h
    exact ⟨hb, hK.nil⟩
  | cons token ts ih =>
    unfold Declaration.trailingQualifiers at h
    split at h
    · rename_i hq
      cases h
      obtain ⟨hrest, hqualifiers⟩ := ih (hK.skip hb (notMem_brackets_of_qualifier hq)) rfl
      exact ⟨hrest, hK.append (hK.qualifier (List.contains_iff_mem.mp hq)) hqualifiers⟩
    · cases h
      exact ⟨hb, hK.nil⟩

theorem rawArgument_yields : K.Yields [] K.argument (rawArgument source) := by
  intro st ts r rest hb h
  unfold rawArgument at h
  obtain ⟨⟨raw, rest'⟩, hraw, h⟩ := bind_eq_ok h
  dsimp only at h
  split at h
  · unfold unexpectedHere at h
    split at h <;> cases h
  · rename_i hgood
    cases h
    exact ⟨hK.raw hb hraw, hK.copied hb hraw fun hnil => hgood (by simp [isBadArgument, hnil])⟩

theorem passDefault (hb : K.tokens st ts) (h : passDefault source ts = .ok rest) :
    K.tokens st rest := by
  unfold Declaration.passDefault at h
  split at h
  · rename_i hequals
    obtain ⟨token, ts₁, rfl, hw⟩ := eq_cons_of_nextIs hequals
    obtain ⟨r, hraw, rfl⟩ := map_eq_ok h
    exact hK.raw (hK.pass hb hw (by decide)) hraw
  · cases h
    exact hb

theorem listTail_yields {closes : List Char} {close : Text} {more : Parse (List CType)}
    {first : CType} {P : CType → Prop} (hfirst : P first)
    (hmore : K.Yields closes (fun items => ∀ a ∈ items, P a) more)
    (hclose : ∀ {st token ts}, K.tokens (closes ++ st) (token :: ts) →
      token.text = close → K.tokens st ts) :
    K.Yields closes (fun items => ∀ a ∈ items, P a) (listTail source close more first) := by
  intro st ts items rest hb h
  unfold listTail at h
  split at h
  · cases h
  · split at h
    · rename_i hcomma
      obtain ⟨⟨others, ts₁⟩, hothers, h⟩ := bind_eq_ok h
      cases h
      obtain ⟨hb₁, hothers⟩ := hmore (hK.pass hb hcomma (by decide)) hothers
      exact ⟨hb₁, List.forall_mem_cons.mpr ⟨hfirst, hothers⟩⟩
    · split at h
      · rename_i hend
        cases h
        exact ⟨hclose hb hend, List.forall_mem_singleton.mpr hfirst⟩
      · cases h

theorem nameTail_yields {component : Text} {more : Parse Text} (hcomponent : K.component component)
    (hmore : K.Yields [] K.name more) : K.Yields [] K.name (nameTail more component) := by
  intro st ts b rest hb h
  unfold nameTail at h
  split at h
  · rename_i hscope
    obtain ⟨colons, ts₁, rfl, hw⟩ := eq_cons_of_nextIs (Bool.and_eq_true_iff.mp hscope).1
    obtain ⟨r, hr, he⟩ := map_eq_ok h
    cases he
    obtain ⟨hb₁, hname⟩ := hmore (hK.pass hb hw (by decide)) hr
    exact ⟨hb₁, hK.scope hcomponent hname⟩
  · cases h
    exact ⟨hb, hK.ends hcomponent⟩

end Closed

namespace Sound

theorem zero : K.Sound source 0 where
  declaration _ _ _ _ _ h := by cases h
  specifiers _ _ _ _ _ _ _ h := by cases h
  qualifiedName _ _ _ _ _ h := by cases h
  nameComponents _ _ _ _ _ h := by cases h
  templateArguments _ _ _ _ _ h := by cases h
  argumentList _ _ _ _ _ h := by cases h
  declarator _ _ _ _ _ h := by cases h
  declaratorSuffixes _ _ _ _ _ h := by cases h
  parameters _ _ _ _ _ h := by cases h
  parameterList _ _ _ _ _ h := by cases h

variable (hK : K.Closed) (hn : K.Sound source n)
include hK hn

theorem declaration_succ : K.Yields [] K.type (Declaration.declaration source (n + 1)) := by
  intro st ts t rest hb h
  unfold Declaration.declaration at h
  split at h
  · rename_i hdots
    obtain ⟨token, ts, rfl, hw⟩ := eq_cons_of_nextIs hdots
    cases h
    exact ⟨hK.pass hb hw (by decide), hK.dots⟩
  · obtain ⟨⟨base, ts₁⟩, hbase, h⟩ := bind_eq_ok h
    obtain ⟨⟨declared, ts₂⟩, hdeclared, h⟩ := bind_eq_ok h
    cases h
    have hsaid : K.Said {} := ⟨by simp, by simp, by simp⟩
    obtain ⟨hb₁, hbase⟩ := hn.specifiers hsaid hb hbase
    obtain ⟨hb₂, hdeclared⟩ := hn.declarator hb₁ hdeclared
    exact ⟨hb₂, hK.pushed hdeclared hbase⟩

theorem specifiers_succ {s : Specifiers} (hs : K.Said s) :
    K.Yields [] K.specified (Declaration.specifiers source (n + 1) s) := by
  intro st ts t rest hb h
  unfold Declaration.specifiers at h
  split at h
  · obtain ⟨t, ht, he⟩ := map_eq_ok h
    cases he
    exact ⟨hb, hK.said hs ht⟩
  · rename_i token ts
    dsimp only at h
    split at h
    · rename_i hq
      have hw := notMem_brackets_of_qualifier hq
      exact hn.specifiers (hs.qualified (List.contains_iff_mem.mp hq)) (hK.skip hb hw) h
    · split at h
      · rename_i hword
        have hbuiltin := List.contains_iff_mem.mp (Bool.and_eq_true_iff.mp hword).2
        have hall : ∀ w ∈ builtinWords, w ∉ brackets := by decide
        exact hn.specifiers (hs.worded hbuiltin) (hK.skip hb (hall _ hbuiltin)) h
      · split at h
        · rename_i htag
          have hkeyword := List.contains_iff_mem.mp (Bool.and_eq_true_iff.mp htag).2
          have hall : ∀ w ∈ tagKeywords, w ∉ brackets := by decide
          obtain ⟨⟨name, ts₁⟩, hname, h⟩ := bind_eq_ok h
          obtain ⟨hb₁, hname⟩ := hn.qualifiedName (hK.skip hb (hall _ hkeyword)) hname
          refine hn.specifiers (hs.named ?_) hb₁ h
          split
          · exact hK.named hname
          · exact hK.tagged hkeyword ‹_› hname
        · split at h
          · obtain ⟨⟨name, ts₁⟩, hname, h⟩ := bind_eq_ok h
            obtain ⟨hb₁, hname⟩ := hn.qualifiedName hb hname
            exact hn.specifiers (hs.named (hK.named hname)) hb₁ h
          · obtain ⟨t, ht, he⟩ := map_eq_ok h
            cases he
            exact ⟨hb, hK.said hs ht⟩

theorem qualifiedName_succ : K.Yields [] K.name (Declaration.qualifiedName source (n + 1)) := by
  intro st ts b rest hb h
  unfold Declaration.qualifiedName at h
  split at h
  · rename_i hcolons
    obtain ⟨token, ts, rfl, hw⟩ := eq_cons_of_nextIs hcolons
    obtain ⟨r, hr, he⟩ := map_eq_ok h
    cases he
    obtain ⟨hb₁, hname⟩ := hn.nameComponents (hK.pass hb hw (by decide)) hr
    exact ⟨hb₁, hK.outermost hname⟩
  · exact hn.nameComponents hb h

theorem nameComponent_yields {component : Text} (hb : K.tokens st (token :: ts))
    (hstarts : startsName token.text = true)
    (h : nameComponent source n token.text ts = .ok (component, rest)) :
    K.tokens st rest ∧ K.component component := by
  have hskip := hK.skip hb (notMem_brackets_of_startsName hstarts)
  unfold nameComponent at h
  split at h
  · rename_i hless
    obtain ⟨less, ts₁, rfl, hw⟩ := eq_cons_of_nextIs hless
    obtain ⟨⟨args, ts₂⟩, hargs, he⟩ := map_eq_ok h
    cases he
    obtain ⟨hb₂, hargs⟩ := hn.templateArguments (hK.pass hskip hw (by decide)) hargs
    exact ⟨hb₂, hK.template hb hstarts hargs⟩
  · cases h
    exact ⟨hskip, hK.word hb hstarts⟩

theorem nameComponents_succ : K.Yields [] K.name (Declaration.nameComponents source (n + 1)) := by
  intro st ts b rest hb h
  cases ts with
  | nil => cases h
  | cons token ts =>
    by_cases hstarts : startsName token.text = true
    · rw [nameComponents_eq _ _ _ hstarts] at h
      obtain ⟨⟨component, ts₁⟩, hcomponent, h⟩ := bind_eq_ok h
      obtain ⟨hb₁, hcomponent⟩ := hn.nameComponent_yields hK hb hstarts hcomponent
      exact hK.nameTail_yields hcomponent hn.nameComponents hb₁ h
    · rw [nameComponents_of_not_startsName _ _ _ hstarts] at h
      cases h

theorem templateArguments_succ : K.Yields [] (fun args => ∀ a ∈ args, K.argument a)
    (Declaration.templateArguments source (n + 1)) := by
  intro st ts args rest hb h
  unfold Declaration.templateArguments at h
  split at h
  · rename_i hgreater
    obtain ⟨token, ts, rfl, hw⟩ := eq_cons_of_nextIs hgreater
    cases h
    exact ⟨hK.pass hb hw (by decide), List.forall_mem_nil _⟩
  · exact hn.argumentList hb h

theorem firstArgument_yields : K.Yields [] K.argument (firstArgument source n) := by
  intro st ts a rest hb h
  unfold firstArgument at h
  split at h
  · rename_i t ts₁ hdeclaration
    split at h
    · cases h
      obtain ⟨hb₁, ht⟩ := hn.declaration hb hdeclaration
      exact ⟨hb₁, hK.typed ht⟩
    · exact hK.rawArgument_yields hb h
  · exact hK.rawArgument_yields hb h

theorem argumentList_succ : K.Yields [] (fun args => ∀ a ∈ args, K.argument a)
    (Declaration.argumentList source (n + 1)) := by
  intro st ts args rest hb h
  rw [argumentList_eq] at h
  obtain ⟨r, hfirst, h⟩ := bind_eq_ok h
  obtain ⟨hb₁, hargument⟩ := hn.firstArgument_yields hK hb hfirst
  refine hK.listTail_yields hargument hn.argumentList (fun hb hend => ?_) hb₁ h
  exact hK.pass hb hend (by decide)

theorem declaredCore_yields : K.Yields [] K.construct (declaredCore source n) := by
  intro st ts c rest hb h
  unfold declaredCore at h
  split at h
  · rename_i hgroup
    obtain ⟨token, ts, rfl, hw⟩ := eq_cons_of_opensGroup hgroup
    obtain ⟨⟨inner, ts₁⟩, hread, h⟩ := bind_eq_ok h
    obtain ⟨ts₂, hclose, h⟩ := bind_eq_ok h
    cases h
    obtain ⟨hb₁, hinner⟩ := hn.declarator (hK.round hb hw) hread
    obtain ⟨close, rfl, hcloseText⟩ := eq_cons_of_expect hclose
    exact ⟨hK.endRound hb₁ hcloseText, hinner⟩
  · split at h
    · cases h
      exact ⟨hb, hK.nil⟩
    · split at h
      · rename_i hname
        cases h
        have hstarts := (Bool.and_eq_true_iff.mp hname).1
        exact ⟨hK.skip hb (notMem_brackets_of_startsName hstarts), hK.nil⟩
      · cases h
        exact ⟨hb, hK.nil⟩

theorem declarator_succ : K.Yields [] K.construct (Declaration.declarator source (n + 1)) := by
  intro st ts c rest hb h
  rw [declarator_eq] at h
  obtain ⟨⟨inner, ts₁⟩, hcore, h⟩ := bind_eq_ok h
  obtain ⟨⟨suffixes, ts₂⟩, hsuffixes, h⟩ := bind_eq_ok h
  cases h
  obtain ⟨hb₀, houter⟩ := hK.pointers hb hK.nil rfl
  obtain ⟨hb₁, hinner⟩ := hn.declaredCore_yields hK hb₀ hcore
  obtain ⟨hb₂, hsuffixes⟩ := hn.declaratorSuffixes hb₁ hsuffixes
  exact ⟨hb₂, hK.append (hK.append hinner hsuffixes) houter⟩

theorem declaratorSuffixes_succ :
    K.Yields [] K.construct (Declaration.declaratorSuffixes source (n + 1)) := by
  intro st ts c rest hb h
  unfold Declaration.declaratorSuffixes at h
  split at h
  · rename_i hsquare
    obtain ⟨token, ts, rfl, hw⟩ := eq_cons_of_nextIs hsquare
    obtain ⟨⟨dimension, ts₁⟩, hdimension, h⟩ := bind_eq_ok h
    obtain ⟨ts₂, hclose, h⟩ := bind_eq_ok h
    obtain ⟨⟨suffixes, ts₃⟩, hsuffixes, h⟩ := bind_eq_ok h
    cases h
    have hopened := hK.square hb hw
    obtain ⟨close, rfl, hcloseText⟩ := eq_cons_of_expect hclose
    obtain ⟨hb₃, hsuffixes⟩ :=
      hn.declaratorSuffixes (hK.endSquare (hK.raw hopened hdimension) hcloseText) hsuffixes
    exact ⟨hb₃, hK.append (hK.array hopened hdimension) hsuffixes⟩
  · split at h
    · rename_i hround
      obtain ⟨token, ts, rfl, hw⟩ := eq_cons_of_nextIs hround
      obtain ⟨⟨types, ts₁⟩, htypes, h⟩ := bind_eq_ok h
      obtain ⟨hb₁, htypes⟩ := hn.parameters (hK.round hb hw) htypes
      cases hq : trailingQualifiers ts₁ with
      | mk qualifiers ts₂ =>
        obtain ⟨hb₂, hqualifiers⟩ := hK.trailingQualifiers hb₁ hq
        dsimp only at h
        rw [hq] at h
        obtain ⟨⟨suffixes, ts₃⟩, hsuffixes, h⟩ := bind_eq_ok h
        cases h
        obtain ⟨hb₃, hsuffixes⟩ := hn.declaratorSuffixes hb₂ hsuffixes
        exact ⟨hb₃, hK.append (hK.append hqualifiers (hK.function htypes)) hsuffixes⟩
    · cases h
      exact ⟨hb, hK.nil⟩

theorem parameters_succ : K.Yields ['('] (fun types => ∀ t ∈ types, K.type t)
    (Declaration.parameters source (n + 1)) := by
  intro st ts types rest hb h
  unfold Declaration.parameters at h
  split at h
  · rename_i hclose
    obtain ⟨token, ts, rfl, hw⟩ := eq_cons_of_nextIs hclose
    cases h
    exact ⟨hK.endRound hb hw, List.forall_mem_nil _⟩
  · obtain ⟨⟨types, ts₁⟩, htypes, h⟩ := bind_eq_ok h
    cases h
    obtain ⟨hb₁, htypes⟩ := hn.parameterList hb htypes
    exact ⟨hb₁, forall_mem_ite (List.forall_mem_nil _) htypes⟩

theorem parameterList_succ : K.Yields ['('] (fun types => ∀ t ∈ types, K.type t)
    (Declaration.parameterList source (n + 1)) := by
  intro st ts types rest hb h
  rw [parameterList_eq] at h
  obtain ⟨⟨t, ts₁⟩, ht, h⟩ := bind_eq_ok h
  obtain ⟨ts₂, hdefault, h⟩ := bind_eq_ok h
  have hopened : K.tokens ([] ++ '(' :: st) ts := hb
  obtain ⟨hb₁, ht⟩ := hn.declaration hopened ht
  have hb₂ : K.tokens ('(' :: st) ts₂ := hK.passDefault hb₁ hdefault
  exact hK.listTail_yields ht hn.parameterList (fun hb hend => hK.endRound hb hend) hb₂ h

theorem succ : K.Sound source (n + 1) where
  declaration := hn.declaration_succ hK
  specifiers _ hs := hn.specifiers_succ hK hs
  qualifiedName := hn.qualifiedName_succ hK
  nameComponents := hn.nameComponents_succ hK
  templateArguments := hn.templateArguments_succ hK
  argumentList := hn.argumentList_succ hK
  declarator := hn.declarator_succ hK
  declaratorSuffixes := hn.declaratorSuffixes_succ hK
  parameters := hn.parameters_succ hK
  parameterList := hn.parameterList_succ hK

end Sound

theorem Closed.sound (hK : K.Closed) (source : Text) (n : Nat) : K.Sound source n := by
  induction n with
  | zero => exact .zero
  | succ n ih => exact ih.succ hK

theorem Closed.parse {t : CType} (hK : K.Closed) (hb : K.tokens [] (Declaration.tokens source))
    (h : parse source = .ok t) : K.type t := by
  unfold Declaration.parse at h
  split at h
  · cases h
  · obtain ⟨⟨type, rest⟩, htype, h⟩ := bind_eq_ok h
    obtain ⟨-, htyped⟩ := (hK.sound source _).declaration hb htype
    dsimp only at h
    split at h
    · cases h
      exact htyped
    · unfold unexpectedHere at h
      split at h <;> cases h

end Kept

end BindingTypes.Declaration
