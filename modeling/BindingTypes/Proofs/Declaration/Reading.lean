import BindingTypes.Proofs.Declaration.Rules

namespace BindingTypes.Declaration

/-- The tokens `rest` are what is left of `ts` behind at least `k` of them. -/
structure Behind (k : Nat) (ts rest : List Token) : Prop where
  suffix : rest <:+ ts
  length : rest.length + k ≤ ts.length

/-- The error is about `source`, and a token that it names is one of `ts`. -/
def DeclarationError.About (source : Text) (ts : List Token) : DeclarationError → Prop
  | .empty => True
  | .unexpected found offset text => ⟨found, offset⟩ ∈ ts ∧ text = source
  | .unexpectedEnd text => text = source
  | .missingBase text => text = source

/-- What is read at `ts` goes on behind at least `k` of them, or is an error about them; `left`
tells where a result goes on. -/
def Reads {α : Type} (source : Text) (left : α → List Token) (k : Nat) (ts : List Token) :
    Except DeclarationError α → Prop
  | .ok a => Behind k ts (left a)
  | .error e => e.About source ts

variable {α β : Type} {source owner : Text} {left : α → List Token} {left' : β → List Token}
  {j k n : Nat} {ts rest rest' : List Token} {token : Token} {a : α}
  {x : Except DeclarationError α} {f : α → Except DeclarationError β} {e : DeclarationError}

namespace Behind

theorem refl (ts : List Token) : Behind 0 ts ts := ⟨List.suffix_rfl, Nat.le_refl _⟩

theorem skip (h : Behind k ts rest) (token : Token) : Behind (k + 1) (token :: ts) rest :=
  ⟨h.suffix.trans (List.suffix_cons token ts), Nat.succ_le_succ h.length⟩

theorem weaken (h : Behind k ts rest) (hjk : j ≤ k) : Behind j ts rest :=
  ⟨h.suffix, Nat.le_trans (Nat.add_le_add_left hjk _) h.length⟩

theorem trans (h : Behind j ts rest) (h' : Behind k rest rest') : Behind (k + j) ts rest' := by
  refine ⟨h'.suffix.trans h.suffix, ?_⟩
  have hlength := h.length
  have hlength' := h'.length
  omega

end Behind

theorem memberPath_behind (h : memberPath ts = some (owner, rest)) : Behind 1 ts rest := by
  fun_induction memberPath ts generalizing owner with
  | case1 => cases h
  | case2 name colons hname star rest' hstar =>
    cases h
    exact ((((Behind.refl _).skip star).skip colons).skip name).weaken (by decide)
  | case3 name colons hname star rest' hstar ih =>
    obtain ⟨r, hr, he⟩ := Option.map_eq_some_iff.mp h
    cases he
    exact (((ih hr).skip colons).skip name).weaken (by decide)
  | case4 => cases h
  | case5 => cases h

theorem memberPointer?_behind (h : memberPointer? ts = some (owner, rest)) : Behind 1 ts rest := by
  unfold memberPointer? at h
  split at h
  · cases h
  · rename_i token ts
    split at h
    · obtain ⟨r, hr, he⟩ := Option.map_eq_some_iff.mp h
      cases he
      exact ((memberPath_behind hr).skip token).weaken (by decide)
    · exact memberPath_behind h

theorem pointers_behind (fuel : Nat) (inner : CType) (ts : List Token) :
    Behind 0 ts (pointers fuel inner ts).2 := by
  fun_induction pointers fuel inner ts with
  | case1 => exact .refl _
  | case2 => exact .refl _
  | case3 _ _ token _ _ ih => exact (ih.skip token).weaken (Nat.zero_le _)
  | case4 _ _ token _ _ _ ih => exact (ih.skip token).weaken (Nat.zero_le _)
  | case5 _ _ token _ _ _ _ ih => exact (ih.skip token).weaken (Nat.zero_le _)
  | case6 _ _ _ _ _ _ _ _ _ hm ih =>
    exact ((memberPointer?_behind hm).trans ih).weaken (Nat.zero_le _)
  | case7 => exact .refl _

theorem trailingQualifiers_behind (ts : List Token) : Behind 0 ts (trailingQualifiers ts).2 := by
  fun_induction trailingQualifiers ts with
  | case1 => exact .refl _
  | case2 token _ _ _ ih => exact (ih.skip token).weaken (Nat.zero_le _)
  | case3 => exact .refl _

theorem DeclarationError.About.mono (h : e.About source rest) (hrest : rest <:+ ts) :
    e.About source ts := by
  cases e with
  | empty => trivial
  | unexpected found offset text => exact ⟨hrest.subset h.1, h.2⟩
  | unexpectedEnd text => exact h
  | missingBase text => exact h

namespace Reads

theorem stays (h : left a = ts) : Reads source left 0 ts (.ok a) := by
  subst h
  exact Behind.refl (left a)

theorem weaken (h : Reads source left k ts x) (hjk : j ≤ k) : Reads source left j ts x := by
  cases x with
  | ok a => exact Behind.weaken h hjk
  | error e => exact h

/-- What is read further on is about all the tokens. -/
theorem behind (h : Reads source left k rest x) (hrest : Behind j ts rest) :
    Reads source left (k + j) ts x := by
  cases x with
  | ok a => exact hrest.trans h
  | error e => exact h.mono hrest.suffix

theorem skip (h : Reads source left k ts x) (token : Token) :
    Reads source left (k + 1) (token :: ts) x := by
  cases x with
  | ok a => exact Behind.skip h token
  | error e => exact h.mono (List.suffix_cons token ts)

theorem bind (hx : Reads source left j ts x) (hf : ∀ a, Reads source left' k (left a) (f a)) :
    Reads source left' (k + j) ts (x >>= f) := by
  cases x with
  | ok a => exact (hf a).behind hx
  | error e => exact hx

theorem map {g : α → β} (hx : Reads source left k ts x) (hg : ∀ a, left' (g a) = left a) :
    Reads source left' k ts (x.map g) := by
  cases x with
  | ok a =>
    show Behind k ts (left' (g a))
    rw [hg]
    exact hx
  | error e => exact hx

theorem unexpected (hmem : token ∈ ts) :
    Reads source left k ts (.error (.unexpected token.text token.offset source)) := ⟨hmem, rfl⟩

theorem unexpectedHere : Reads source left k ts (unexpectedHere source ts) := by
  cases ts with
  | nil => rfl
  | cons token ts => exact unexpected List.mem_cons_self

theorem expect (source want : Text) (ts : List Token) :
    Reads source id 1 ts (expect source want ts) := by
  unfold Declaration.expect
  split
  · split
    · exact (stays rfl).skip _
    · exact unexpected List.mem_cons_self
  · rfl

theorem rawUntil (source : Text) (stops : List Text) (depth : Nat) (afterWord : Bool)
    (ts : List Token) :
    Reads source Prod.snd 0 ts (rawUntil source stops depth afterWord ts) := by
  fun_induction Declaration.rawUntil source stops depth afterWord ts with
  | case1 => rfl
  | case2 => exact stays rfl
  | case3 => exact unexpected List.mem_cons_self
  | case4 _ _ token _ _ _ _ _ _ _ ih =>
    exact ((ih.skip token).weaken (Nat.zero_le _)).map fun _ => rfl

theorem rawArgument (ts : List Token) :
    Reads source Prod.snd 0 ts (rawArgument source ts) := by
  unfold Declaration.rawArgument
  refine (rawUntil source _ _ _ ts).bind fun r => ?_
  dsimp only
  split
  · exact unexpectedHere
  · exact stays rfl

theorem said (s : Specifiers) (ts : List Token) :
    Reads source Prod.snd 0 ts ((s.type source).map (·, ts)) := by
  unfold Specifiers.type
  split
  · cases s.name with
    | none => rfl
    | some name => exact Behind.refl ts
  · exact Behind.refl ts

/-- The list rules end at the bracket that closes the list. -/
theorem listTail {close : Text} {more : Parse (List CType)} {first : CType}
    (hmore : ∀ ts, Reads source Prod.snd k ts (more ts)) (ts : List Token) :
    Reads source Prod.snd 1 ts (listTail source close more first ts) := by
  unfold Declaration.listTail
  split
  · rfl
  · rename_i token ts
    split
    · refine .weaken (j := 1) (((hmore ts).skip token).bind fun r => stays rfl) ?_
      omega
    · split
      · exact (Behind.refl ts).skip token
      · exact unexpected List.mem_cons_self

theorem passDefault (ts : List Token) : Reads source id 0 ts (passDefault source ts) := by
  unfold Declaration.passDefault
  split
  · rename_i hequals
    obtain ⟨token, rest, rfl, -⟩ := eq_cons_of_nextIs hequals
    have hvalue := (rawUntil source [[','], [')']] 0 false rest).skip token
    exact (hvalue.weaken (Nat.zero_le _)).map fun _ => rfl
  · exact stays rfl

theorem nameTail {more : Parse Text} (hmore : ∀ ts, Reads source Prod.snd k ts (more ts))
    (component : Text) (ts : List Token) :
    Reads source Prod.snd 0 ts (nameTail more component ts) := by
  unfold Declaration.nameTail
  split
  · rename_i hscope
    obtain ⟨token, rest, rfl, -⟩ := eq_cons_of_nextIs (Bool.and_eq_true_iff.mp hscope).1
    exact (((hmore rest).skip token).weaken (Nat.zero_le _)).map fun _ => rfl
  · exact Behind.refl ts

end Reads

/-- What each rule does within a bound on the nesting, and how many tokens it reads at least. -/
structure RulesRead (source : Text) (n : Nat) : Prop where
  declaration : ∀ ts, Reads source Prod.snd 0 ts (declaration source n ts)
  specifiers : ∀ s ts, Reads source Prod.snd 0 ts (specifiers source n s ts)
  qualifiedName : ∀ ts, Reads source Prod.snd 1 ts (qualifiedName source n ts)
  nameComponents : ∀ ts, Reads source Prod.snd 1 ts (nameComponents source n ts)
  templateArguments : ∀ ts, Reads source Prod.snd 1 ts (templateArguments source n ts)
  argumentList : ∀ ts, Reads source Prod.snd 1 ts (argumentList source n ts)
  declarator : ∀ ts, Reads source Prod.snd 0 ts (declarator source n ts)
  declaratorSuffixes : ∀ ts, Reads source Prod.snd 0 ts (declaratorSuffixes source n ts)
  parameters : ∀ ts, Reads source Prod.snd 1 ts (parameters source n ts)
  parameterList : ∀ ts, Reads source Prod.snd 1 ts (parameterList source n ts)

namespace RulesRead

theorem zero : RulesRead source 0 where
  declaration _ := rfl
  specifiers _ _ := rfl
  qualifiedName _ := rfl
  nameComponents _ := rfl
  templateArguments _ := rfl
  argumentList _ := rfl
  declarator _ := rfl
  declaratorSuffixes _ := rfl
  parameters _ := rfl
  parameterList _ := rfl

variable (hn : RulesRead source n)
include hn

theorem declaration_succ (ts : List Token) :
    Reads source Prod.snd 0 ts (Declaration.declaration source (n + 1) ts) := by
  unfold Declaration.declaration
  split
  · rename_i hdots
    obtain ⟨token, rest, rfl, -⟩ := eq_cons_of_nextIs hdots
    exact ((Behind.refl rest).skip token).weaken (Nat.zero_le _)
  · refine (hn.specifiers {} ts).bind fun r => ?_
    refine (hn.declarator r.2).bind fun r => ?_
    exact .stays rfl

theorem specifiers_succ (s : Specifiers) (ts : List Token) :
    Reads source Prod.snd 0 ts (Declaration.specifiers source (n + 1) s ts) := by
  unfold Declaration.specifiers
  split
  · exact .said s []
  · rename_i token ts
    dsimp only
    split
    · exact ((hn.specifiers _ ts).skip token).weaken (Nat.zero_le _)
    · split
      · exact ((hn.specifiers _ ts).skip token).weaken (Nat.zero_le _)
      · split
        · have hname := (hn.qualifiedName ts).skip token
          exact (hname.weaken (Nat.zero_le _)).bind fun r => hn.specifiers _ r.2
        · split
          · have hname := hn.qualifiedName (token :: ts)
            exact (hname.weaken (Nat.zero_le _)).bind fun r => hn.specifiers _ r.2
          · exact .said s (token :: ts)

theorem qualifiedName_succ (ts : List Token) :
    Reads source Prod.snd 1 ts (Declaration.qualifiedName source (n + 1) ts) := by
  unfold Declaration.qualifiedName
  split
  · rename_i hcolons
    obtain ⟨token, rest, rfl, -⟩ := eq_cons_of_nextIs hcolons
    exact (((hn.nameComponents rest).skip token).weaken (by decide)).map fun _ => rfl
  · exact hn.nameComponents ts

theorem nameComponent_reads (word : Text) (ts : List Token) :
    Reads source Prod.snd 0 ts (nameComponent source n word ts) := by
  unfold nameComponent
  split
  · rename_i hless
    obtain ⟨token, rest, rfl, -⟩ := eq_cons_of_nextIs hless
    have harguments := (hn.templateArguments rest).skip token
    exact (harguments.weaken (Nat.zero_le _)).map fun _ => rfl
  · exact Behind.refl ts

theorem nameComponents_succ (ts : List Token) :
    Reads source Prod.snd 1 ts (Declaration.nameComponents source (n + 1) ts) := by
  cases ts with
  | nil => rfl
  | cons token ts =>
    by_cases hname : startsName token.text = true
    · rw [nameComponents_eq _ _ _ hname]
      have hread := (hn.nameComponent_reads token.text ts).bind fun r =>
        Reads.nameTail hn.nameComponents r.1 r.2
      exact hread.skip token
    · rw [nameComponents_of_not_startsName _ _ _ hname]
      exact .unexpected List.mem_cons_self

theorem templateArguments_succ (ts : List Token) :
    Reads source Prod.snd 1 ts (Declaration.templateArguments source (n + 1) ts) := by
  unfold Declaration.templateArguments
  split
  · rename_i hgreater
    obtain ⟨token, rest, rfl, -⟩ := eq_cons_of_nextIs hgreater
    exact (Behind.refl rest).skip token
  · exact hn.argumentList ts

theorem firstArgument_reads (ts : List Token) :
    Reads source Prod.snd 0 ts (firstArgument source n ts) := by
  have hread := hn.declaration ts
  unfold firstArgument
  split
  · rename_i type rest hdeclaration
    rw [hdeclaration] at hread
    split
    · exact hread
    · exact .rawArgument ts
  · exact .rawArgument ts

theorem argumentList_succ (ts : List Token) :
    Reads source Prod.snd 1 ts (Declaration.argumentList source (n + 1) ts) := by
  rw [argumentList_eq]
  exact (hn.firstArgument_reads ts).bind fun r => .listTail hn.argumentList r.2

theorem declaredCore_reads (ts : List Token) :
    Reads source Prod.snd 0 ts (declaredCore source n ts) := by
  unfold declaredCore
  split
  · rename_i hgroup
    obtain ⟨token, rest, rfl, -⟩ := eq_cons_of_opensGroup hgroup
    have hinner := (hn.declarator rest).skip token
    refine (hinner.weaken (Nat.zero_le _)).bind fun r => ?_
    refine ((Reads.expect source [')'] r.2).weaken (Nat.zero_le _)).bind fun ts => ?_
    exact .stays rfl
  · split
    · exact Behind.refl []
    · rename_i token rest _
      split
      · exact ((Behind.refl rest).skip token).weaken (Nat.zero_le _)
      · exact Behind.refl _

theorem declarator_succ (ts : List Token) :
    Reads source Prod.snd 0 ts (Declaration.declarator source (n + 1) ts) := by
  rw [declarator_eq]
  refine Reads.behind ?_ (pointers_behind (ts.length + 1) [] ts)
  refine (hn.declaredCore_reads _).bind fun core => ?_
  refine (hn.declaratorSuffixes core.2).bind fun r => ?_
  exact .stays rfl

theorem declaratorSuffixes_succ (ts : List Token) :
    Reads source Prod.snd 0 ts (Declaration.declaratorSuffixes source (n + 1) ts) := by
  unfold Declaration.declaratorSuffixes
  split
  · rename_i hsquare
    obtain ⟨token, rest, rfl, -⟩ := eq_cons_of_nextIs hsquare
    have hdimension := (Reads.rawUntil source [[']']] 0 false rest).skip token
    refine (hdimension.weaken (Nat.zero_le _)).bind fun r => ?_
    refine ((Reads.expect source [']'] r.2).weaken (Nat.zero_le _)).bind fun ts => ?_
    refine (hn.declaratorSuffixes ts).bind fun r => ?_
    exact .stays rfl
  · split
    · rename_i hround
      obtain ⟨token, rest, rfl, -⟩ := eq_cons_of_nextIs hround
      have hparameters := (hn.parameters rest).skip token
      refine (hparameters.weaken (Nat.zero_le _)).bind fun r => ?_
      refine Reads.behind ?_ (trailingQualifiers_behind r.2)
      refine (hn.declaratorSuffixes _).bind fun r => ?_
      exact .stays rfl
    · exact Behind.refl ts

theorem parameters_succ (ts : List Token) :
    Reads source Prod.snd 1 ts (Declaration.parameters source (n + 1) ts) := by
  unfold Declaration.parameters
  split
  · rename_i hclose
    obtain ⟨token, rest, rfl, -⟩ := eq_cons_of_nextIs hclose
    exact (Behind.refl rest).skip token
  · refine (hn.parameterList ts).bind fun r => ?_
    exact .stays rfl

theorem parameterList_succ (ts : List Token) :
    Reads source Prod.snd 1 ts (Declaration.parameterList source (n + 1) ts) := by
  rw [parameterList_eq]
  refine (hn.declaration ts).bind fun r => ?_
  exact (Reads.passDefault r.2).bind fun ts => .listTail hn.parameterList ts

theorem succ : RulesRead source (n + 1) where
  declaration := hn.declaration_succ
  specifiers := hn.specifiers_succ
  qualifiedName := hn.qualifiedName_succ
  nameComponents := hn.nameComponents_succ
  templateArguments := hn.templateArguments_succ
  argumentList := hn.argumentList_succ
  declarator := hn.declarator_succ
  declaratorSuffixes := hn.declaratorSuffixes_succ
  parameters := hn.parameters_succ
  parameterList := hn.parameterList_succ

end RulesRead

theorem rulesRead (source : Text) (n : Nat) : RulesRead source n := by
  induction n with
  | zero => exact .zero
  | succ n ih => exact ih.succ

/-- The end of a declaration is the end of its text. -/
theorem parse_reads (source : Text) :
    Reads source (fun _ => []) 0 (tokens source) (parse source) := by
  unfold parse
  split
  · trivial
  · refine ((rulesRead source _).declaration (tokens source)).bind fun r => ?_
    dsimp only
    split
    · exact ⟨List.nil_suffix, Nat.zero_le _⟩
    · exact .unexpectedHere

end BindingTypes.Declaration
