import BindingTypes.Proofs.Declaration.Reading

namespace BindingTypes.Declaration

/-- No rule changes its answer for one more level of nesting, where the bound leaves eight levels for
each token and a few for the rules that follow one another before the first one is read. -/
structure Settled (source : Text) (n : Nat) : Prop where
  declaration : ∀ ⦃ts⦄, 8 * ts.length + 4 ≤ n →
    declaration source (n + 1) ts = declaration source n ts
  specifiers : ∀ ⦃s ts⦄, 8 * ts.length + 3 ≤ n →
    specifiers source (n + 1) s ts = specifiers source n s ts
  qualifiedName : ∀ ⦃ts⦄, 8 * ts.length + 2 ≤ n →
    qualifiedName source (n + 1) ts = qualifiedName source n ts
  nameComponents : ∀ ⦃ts⦄, 8 * ts.length + 1 ≤ n →
    nameComponents source (n + 1) ts = nameComponents source n ts
  templateArguments : ∀ ⦃ts⦄, 8 * ts.length + 6 ≤ n →
    templateArguments source (n + 1) ts = templateArguments source n ts
  argumentList : ∀ ⦃ts⦄, 8 * ts.length + 5 ≤ n →
    argumentList source (n + 1) ts = argumentList source n ts
  declarator : ∀ ⦃ts⦄, 8 * ts.length + 2 ≤ n →
    declarator source (n + 1) ts = declarator source n ts
  declaratorSuffixes : ∀ ⦃ts⦄, 8 * ts.length + 1 ≤ n →
    declaratorSuffixes source (n + 1) ts = declaratorSuffixes source n ts
  parameters : ∀ ⦃ts⦄, 8 * ts.length + 6 ≤ n →
    parameters source (n + 1) ts = parameters source n ts
  parameterList : ∀ ⦃ts⦄, 8 * ts.length + 5 ≤ n →
    parameterList source (n + 1) ts = parameterList source n ts

variable {α β : Type} {source close word component : Text} {left : α → List Token} {k n : Nat}
  {ts : List Token} {x y : Except DeclarationError α} {f g : α → Except DeclarationError β}

/-- Two readings that start alike agree where they agree on what is left. -/
theorem bind_congr_of_reads (hread : Reads source left k ts y) (hxy : x = y)
    (hfg : ∀ a, (left a).length + k ≤ ts.length → f a = g a) : x >>= f = y >>= g := by
  subst hxy
  cases x with
  | ok a => exact hfg a (Behind.length hread)
  | error e => rfl

theorem nameTail_congr {more more' : Parse Text}
    (h : ∀ rest : List Token, rest.length + 1 ≤ ts.length → more rest = more' rest) :
    nameTail more component ts = nameTail more' component ts := by
  unfold nameTail
  split
  · rename_i hscope
    obtain ⟨token, rest, rfl, -⟩ := eq_cons_of_nextIs (Bool.and_eq_true_iff.mp hscope).1
    exact congrArg (Except.map _) (h rest (Nat.le_refl _))
  · rfl

theorem listTail_congr {more more' : Parse (List CType)} {first : CType}
    (h : ∀ rest : List Token, rest.length + 1 ≤ ts.length → more rest = more' rest) :
    listTail source close more first ts = listTail source close more' first ts := by
  unfold listTail
  split
  · rfl
  · rename_i token rest
    rw [h rest (Nat.le_refl _)]

namespace Settled

theorem zero : Settled source 0 where
  declaration _ h := by omega
  specifiers _ _ h := by omega
  qualifiedName _ h := by omega
  nameComponents _ h := by omega
  templateArguments _ h := by omega
  argumentList _ h := by omega
  declarator _ h := by omega
  declaratorSuffixes _ h := by omega
  parameters _ h := by omega
  parameterList _ h := by omega

variable (hn : Settled source n)
include hn

theorem declaration_succ (h : 8 * ts.length + 4 ≤ n + 1) :
    Declaration.declaration source (n + 2) ts = Declaration.declaration source (n + 1) ts := by
  have hrules := rulesRead source n
  unfold Declaration.declaration
  split
  · rfl
  · refine bind_congr_of_reads (hrules.specifiers {} ts) (hn.specifiers (by omega)) fun r hr => ?_
    refine bind_congr_of_reads (hrules.declarator r.2) (hn.declarator (by omega)) fun _ _ => ?_
    rfl

theorem specifiers_succ {s : Specifiers} (h : 8 * ts.length + 3 ≤ n + 1) :
    Declaration.specifiers source (n + 2) s ts = Declaration.specifiers source (n + 1) s ts := by
  have hrules := rulesRead source n
  unfold Declaration.specifiers
  cases ts with
  | nil => rfl
  | cons token ts =>
    rw [List.length_cons] at h
    dsimp only
    split
    · exact hn.specifiers (by omega)
    · split
      · exact hn.specifiers (by omega)
      · split
        · refine bind_congr_of_reads (hrules.qualifiedName ts) (hn.qualifiedName (by omega))
            fun r hr => ?_
          exact hn.specifiers (by omega)
        · split
          · have hname : Declaration.qualifiedName source (n + 1) (token :: ts) =
                Declaration.qualifiedName source n (token :: ts) :=
              hn.qualifiedName (by rw [List.length_cons]; omega)
            refine bind_congr_of_reads (hrules.qualifiedName (token :: ts)) hname fun r hr => ?_
            -- a name takes a token, so fewer are left for the specifiers behind it
            rw [List.length_cons] at hr
            exact hn.specifiers (by omega)
          · rfl

theorem qualifiedName_succ (h : 8 * ts.length + 2 ≤ n + 1) :
    Declaration.qualifiedName source (n + 2) ts = Declaration.qualifiedName source (n + 1) ts := by
  unfold Declaration.qualifiedName
  split
  · have hdrop : (ts.drop 1).length ≤ ts.length := by simp
    rw [hn.nameComponents (by omega)]
  · exact hn.nameComponents (by omega)

theorem nameComponent_settled (h : 8 * ts.length ≤ n + 2) :
    nameComponent source (n + 1) word ts = nameComponent source n word ts := by
  unfold nameComponent
  split
  · rename_i hless
    obtain ⟨token, rest, rfl, -⟩ := eq_cons_of_nextIs hless
    rw [List.length_cons] at h
    rw [List.drop_one, List.tail_cons, hn.templateArguments (by omega)]
  · rfl

theorem nameComponents_succ (h : 8 * ts.length + 1 ≤ n + 1) :
    Declaration.nameComponents source (n + 2) ts =
      Declaration.nameComponents source (n + 1) ts := by
  cases ts with
  | nil => rfl
  | cons token ts =>
    rw [List.length_cons] at h
    by_cases hname : startsName token.text = true
    · rw [nameComponents_eq _ _ _ hname, nameComponents_eq _ _ _ hname]
      refine bind_congr_of_reads ((rulesRead source n).nameComponent_reads token.text ts)
        (hn.nameComponent_settled (by omega)) fun r hr => ?_
      exact nameTail_congr fun rest hrest => hn.nameComponents (by omega)
    · rw [nameComponents_of_not_startsName _ _ _ hname,
        nameComponents_of_not_startsName _ _ _ hname]

theorem templateArguments_succ (h : 8 * ts.length + 6 ≤ n + 1) :
    Declaration.templateArguments source (n + 2) ts =
      Declaration.templateArguments source (n + 1) ts := by
  unfold Declaration.templateArguments
  split
  · rfl
  · exact hn.argumentList (by omega)

theorem argumentList_succ (h : 8 * ts.length + 5 ≤ n + 1) :
    Declaration.argumentList source (n + 2) ts = Declaration.argumentList source (n + 1) ts := by
  have hfirst : firstArgument source (n + 1) ts = firstArgument source n ts := by
    unfold firstArgument
    rw [hn.declaration (by omega)]
  rw [argumentList_eq, argumentList_eq]
  refine bind_congr_of_reads ((rulesRead source n).firstArgument_reads ts) hfirst fun r hr => ?_
  exact listTail_congr fun rest hrest => hn.argumentList (by omega)

theorem declaredCore_settled (h : 8 * ts.length ≤ n + 6) :
    declaredCore source (n + 1) ts = declaredCore source n ts := by
  unfold declaredCore
  split
  · rename_i hgroup
    obtain ⟨token, rest, rfl, -⟩ := eq_cons_of_opensGroup hgroup
    rw [List.length_cons] at h
    rw [List.drop_one, List.tail_cons, hn.declarator (by omega)]
  · rfl

theorem declarator_succ (h : 8 * ts.length + 2 ≤ n + 1) :
    Declaration.declarator source (n + 2) ts = Declaration.declarator source (n + 1) ts := by
  have hlength := (pointers_behind (ts.length + 1) [] ts).length
  rw [declarator_eq, declarator_eq]
  refine bind_congr_of_reads ((rulesRead source n).declaredCore_reads _)
    (hn.declaredCore_settled (by omega)) fun core hcore => ?_
  rw [hn.declaratorSuffixes (by omega)]

theorem declaratorSuffixes_succ (h : 8 * ts.length + 1 ≤ n + 1) :
    Declaration.declaratorSuffixes source (n + 2) ts =
      Declaration.declaratorSuffixes source (n + 1) ts := by
  unfold Declaration.declaratorSuffixes
  split
  · rename_i hsquare
    obtain ⟨token, rest, rfl, -⟩ := eq_cons_of_nextIs hsquare
    rw [List.length_cons] at h
    refine bind_congr_of_reads (Reads.rawUntil source [[']']] 0 false rest) rfl fun r hr => ?_
    refine bind_congr_of_reads (Reads.expect source [']'] r.2) rfl fun ts hts => ?_
    rw [id_eq] at hts
    rw [hn.declaratorSuffixes (by omega)]
  · split
    · rename_i hround
      obtain ⟨token, rest, rfl, -⟩ := eq_cons_of_nextIs hround
      rw [List.length_cons] at h
      rw [List.drop_one, List.tail_cons]
      refine bind_congr_of_reads ((rulesRead source n).parameters rest)
        (hn.parameters (by omega)) fun r hr => ?_
      have hlength := (trailingQualifiers_behind r.2).length
      dsimp only
      rw [hn.declaratorSuffixes (by omega)]
    · rfl

theorem parameters_succ (h : 8 * ts.length + 6 ≤ n + 1) :
    Declaration.parameters source (n + 2) ts = Declaration.parameters source (n + 1) ts := by
  unfold Declaration.parameters
  split
  · rfl
  · rw [hn.parameterList (by omega)]

theorem parameterList_succ (h : 8 * ts.length + 5 ≤ n + 1) :
    Declaration.parameterList source (n + 2) ts = Declaration.parameterList source (n + 1) ts := by
  rw [parameterList_eq, parameterList_eq]
  refine bind_congr_of_reads ((rulesRead source n).declaration ts) (hn.declaration (by omega))
    fun r hr => ?_
  refine bind_congr_of_reads (Reads.passDefault r.2) rfl fun ts hts => ?_
  exact listTail_congr fun rest hrest => hn.parameterList (by rw [id_eq] at hts; omega)

theorem succ : Settled source (n + 1) where
  declaration _ h := hn.declaration_succ h
  specifiers _ _ h := hn.specifiers_succ h
  qualifiedName _ h := hn.qualifiedName_succ h
  nameComponents _ h := hn.nameComponents_succ h
  templateArguments _ h := hn.templateArguments_succ h
  argumentList _ h := hn.argumentList_succ h
  declarator _ h := hn.declarator_succ h
  declaratorSuffixes _ h := hn.declaratorSuffixes_succ h
  parameters _ h := hn.parameters_succ h
  parameterList _ h := hn.parameterList_succ h

end Settled

theorem settled_rules (source : Text) (n : Nat) : Settled source n := by
  induction n with
  | zero => exact .zero
  | succ n ih => exact ih.succ

/-- The bound on the nesting cuts no declaration short. -/
theorem declaration_of_bound (source : Text) (h : 8 * (ts.length + 1) ≤ n) :
    declaration source n ts = declaration source (8 * (ts.length + 1)) ts := by
  induction n, h using Nat.le_induction with
  | base => rfl
  | succ n hn ih => rw [(settled_rules source n).declaration (by omega), ih]

end BindingTypes.Declaration
