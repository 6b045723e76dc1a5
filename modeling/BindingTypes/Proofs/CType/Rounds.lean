import BindingTypes.Proofs.CType.Renaming

namespace BindingTypes.CType

open Declaration (pathText)

/-- A name, and the type that it becomes. -/
abbrev Round := Text × Pieces

/-- Names become types one after another, and each in what the ones before have put in, too. -/
def substRounds : List Round → Pieces → Pieces
  | [], t => t
  | x :: rounds, t => substRounds rounds (substPieces (only x.1 x.2) t)

/-- Names become types in a text, one after another. -/
def renameAll (rounds : List Round) (t : CType) : Except Fault CType :=
  rounds.foldlM (fun u x => u.rename x.1 (piecesText x.2)) t

/-- Names become types all at once, each by its first round. -/
def allAtOnce (rounds : List Round) : Substitution := fun n => rounds.lookup n

/-- Every round renames without slips. -/
def ClearRounds : List Round → Pieces → Prop
  | [], _ => True
  | x :: rounds, t =>
    (∀ p ∈ t, p.Clear x.1 x.2) ∧ ClearRounds rounds (substPieces (only x.1 x.2) t)

/-- A name becomes a type with a base. -/
structure IsRound (x : Round) : Prop where
  name : IsIdentifier x.1
  isType : IsType x.2
  based : Based x.2

variable {σ τ : Substitution} {n : Text} {r t u : Pieces} {b c p : Piece} {path : List Text}
variable {rounds before after : List Round}

theorem IsRound.proper {x : Round} (h : IsRound x) : (only x.1 x.2).Proper :=
  only_proper h.isType h.based

theorem renameAll_cons (x : Round) (rounds : List Round) (t : CType) :
    renameAll (x :: rounds) t = t.rename x.1 (piecesText x.2) >>= renameAll rounds :=
  List.foldlM_cons

theorem renameAll_append (before after : List Round) (t : CType) :
    renameAll (before ++ after) t = renameAll before t >>= renameAll after := List.foldlM_append

/-- Renaming in a text does to its pieces what the rounds do. -/
theorem renameAll_pieces (hrounds : ∀ x ∈ rounds, IsRound x) (ht : IsType t)
    (hclear : ClearRounds rounds t) :
    renameAll rounds (piecesText t) = .ok (piecesText (substRounds rounds t)) := by
  induction rounds generalizing t with
  | nil => rfl
  | cons x rounds ih =>
    obtain ⟨hx, hrest⟩ := List.forall_mem_cons.mp hrounds
    rw [renameAll_cons, rename_pieces hx.name hx.isType hx.based ht hclear.1]
    exact ih hrest (isType_substPieces hx.proper ht).1 hclear.2

/-- The second substitution where the first leaves a name alone. -/
def Substitution.orElse (σ τ : Substitution) : Substitution := fun n => (σ n).or (τ n)

/-- Where one more name can become a type after others as well as together with them: what a word
of an array dimension became does not hold the name, and no other component of a name with scopes
became a type. -/
inductive Piece.Apart (σ : Substitution) (n : Text) : Piece → Prop
  | fixed {e : Text} : Apart σ n (.fixed e)
  | array {d : Text} (words : ∀ w ∈ d.words, ∀ s, σ w = some s → n ∉ (piecesText s).words) :
      Apart σ n (.array d)
  | function {ps : List Pieces} (apart : ∀ t ∈ ps, ∀ p ∈ t, p.Apart σ n) :
      Apart σ n (.function ps)
  | name {path : List Text} (components : n ∈ path → σ n = none → ∀ m ∈ path, σ m = none) :
      Apart σ n (.name path)
  | template {stem : List Text} {args : List Pieces} {tail : Text}
      (apart : ∀ t ∈ args, ∀ p ∈ t, p.Apart σ n) : Apart σ n (.template stem args tail)

/-- A name without scopes has no other component. -/
theorem apart_name (σ : Substitution) (n m : Text) : (Piece.name [m]).Apart σ n := by
  refine .name fun hn hnone k hk => ?_
  rw [List.mem_singleton.mp hk, ← List.mem_singleton.mp hn]
  exact hnone

section Kept

theorem Piece.Kept.head (h : b.Kept τ) (hb : b.stem? = some path) :
    ∀ n ∈ path.head?, ∀ r, τ n = some r → ∃ args tail, r = [.template [n] args tail] := by
  cases h with
  | name components =>
    cases hb
    intro n hn r hr
    rw [components n (List.mem_of_mem_head? hn)] at hr
    cases hr
  | template head =>
    cases hb
    exact head
  | fixed => cases hb
  | array => cases hb
  | function => cases hb

theorem kept_glue (hb : b.Kept τ) (hc : c.Kept τ) : (glue b c).Kept τ := by
  cases hb with
  | @name p components =>
    cases hc with
    | name components' =>
      exact .name fun n hn => (List.mem_append.mp hn).elim (components n) (components' n)
    | template head kept =>
      refine .template (fun n hn r hr => ?_) kept
      cases p with
      | nil => exact head n hn r hr
      | cons =>
        have hnone := components n (List.mem_of_mem_head? hn)
        rw [hnone] at hr
        cases hr
    | fixed => exact .fixed
    | array => exact .fixed
    | function => exact .fixed
  | template head kept =>
    cases hc with
    | name => exact .template head kept
    | template => exact .template head kept
    | fixed => exact .fixed
    | array => exact .fixed
    | function => exact .fixed
  | fixed => cases hc <;> exact .fixed
  | array => cases hc <;> exact .fixed
  | function => cases hc <;> exact .fixed

theorem kept_underScope (ht : ∀ p ∈ t, p.Kept τ) (hu : ∀ p ∈ u, p.Kept τ) :
    ∀ p ∈ underScope t u, p.Kept τ := by
  induction t with
  | nil => exact hu
  | cons b t ih =>
    obtain ⟨hb, ht⟩ := List.forall_mem_cons.mp ht
    by_cases hnil : t = []
    · subst hnil
      cases u with
      | nil => exact List.forall_mem_singleton.mpr hb
      | cons c u =>
        obtain ⟨hc, hu⟩ := List.forall_mem_cons.mp hu
        exact List.forall_mem_cons.mpr ⟨kept_glue hb hc, hu⟩
    · rw [underScope_cons hnil]
      exact List.forall_mem_cons.mpr ⟨hb, ih ht⟩

theorem kept_substPath (h : ∀ m ∈ path, ∀ p ∈ component σ m, p.Kept τ) :
    ∀ p ∈ substPath σ path, p.Kept τ := by
  induction path with
  | nil => exact nofun
  | cons n path ih =>
    obtain ⟨hn, hrest⟩ := List.forall_mem_cons.mp h
    cases path with
    | nil => exact hn
    | cons m path => exact kept_underScope hn (ih hrest)

end Kept

theorem substPath_congr (h : ∀ m ∈ path, σ m = τ m) : substPath σ path = substPath τ path := by
  induction path with
  | nil => rfl
  | cons n path ih =>
    obtain ⟨hn, hrest⟩ := List.forall_mem_cons.mp h
    have hcomponent : component σ n = component τ n := by rw [component, component, hn]
    cases path with
    | nil => exact hcomponent
    | cons m path => rw [substPath, substPath, hcomponent, ih hrest]

section Each

variable {υ : Substitution}

theorem substPieces_of_pieces (h : ∀ p ∈ t, substPieces τ (p.subst σ) = p.subst υ) :
    substPieces τ (substPieces σ t) = substPieces υ t := by
  induction t with
  | nil => rfl
  | cons p t ih =>
    obtain ⟨hp, ht⟩ := List.forall_mem_cons.mp h
    rw [substPieces, substPieces_append, hp, ih ht]
    rfl

theorem substEach_of_pieces {ts : List Pieces}
    (h : ∀ t ∈ ts, ∀ p ∈ t, substPieces τ (p.subst σ) = p.subst υ) :
    substEach τ (substEach σ ts) = substEach υ ts := by
  rw [substEach_eq, substEach_eq, substEach_eq, List.map_map]
  exact List.map_congr_left fun t ht => substPieces_of_pieces (h t ht)

end Each

section Step

variable (hσ : σ.Proper) (hkept : ∀ m s, σ m = some s → ∀ p ∈ s, p.Kept (only n r))
include hσ hkept

theorem substPieces_substPath (hne : path ≠ []) (hcomponents : ∀ m ∈ path, IsComponent m)
    (hapart : (Piece.name path).Apart σ n) :
    substPieces (only n r) (substPath σ path) = substPath (σ.orElse (only n r)) path := by
  cases hapart with
  | name hnone =>
    by_cases hn : n ∈ path ∧ σ n = none
    · have hall := hnone hn.1 hn.2
      rw [substPath_of_none hne hall, substPieces, substPieces, List.append_nil]
      refine substPath_congr fun m hm => ?_
      rw [Substitution.orElse, hall m hm, Option.none_or]
    · have hother : ∀ m ∈ path, σ m = none → only n r m = none := by
        rintro m hm hmn
        refine if_neg ?_
        rintro rfl
        exact hn ⟨hm, hmn⟩
      have hall : ∀ p ∈ substPath σ path, p.Kept (only n r) := by
        refine kept_substPath fun m hm p hp => ?_
        unfold component at hp
        cases hs : σ m with
        | none =>
          rw [hs, Option.getD_none, List.mem_singleton] at hp
          rw [hp]
          exact .name (List.forall_mem_singleton.mpr (hother m hm hs))
        | some s =>
          rw [hs, Option.getD_some] at hp
          exact hkept m s hs p hp
      rw [substPieces_of_kept hall (stacked_substPath hσ hne hcomponents).1.proper]
      refine substPath_congr fun m hm => ?_
      cases hs : σ m with
      | none => rw [Substitution.orElse, hs, Option.none_or, hother m hm hs]
      | some s => rw [Substitution.orElse, hs, Option.some_or]

theorem substPieces_substStem {stem : List Text} {args : List Pieces} {tail : Text} :
    substPieces (only n r) (substStem σ args tail stem) =
      substStem (σ.orElse (only n r)) (substEach (only n r) args) tail stem := by
  have hsingle : ∀ s, substPieces (only n r) [.template s args tail] =
      substStem (only n r) (substEach (only n r) args) tail s := fun s => List.append_nil _
  cases stem with
  | nil => exact hsingle []
  | cons m path =>
    have hboth : σ.orElse (only n r) m = (σ m).or (only n r m) := rfl
    cases hs : σ m with
    | none =>
      rw [hs, Option.none_or] at hboth
      rw [substStem, hs, substStem, hboth]
      exact hsingle (m :: path)
    | some s =>
      rw [hs, Option.some_or] at hboth
      obtain ⟨htype, front, b, rfl, hbase⟩ := hσ m s hs
      obtain ⟨stem, hstem⟩ := Option.isSome_iff_exists.mp hbase
      have hfront : substPieces (only n r) front = front :=
        substPieces_of_kept (fun p hp => hkept m _ hs p (List.mem_append_left _ hp))
          fun p hp => htype.proper p (List.mem_append_left _ hp)
      -- the name that is there now heads the template from then on
      have hlast : substStem (only n r) (substEach (only n r) args) tail (stem ++ path) =
          [.template (stem ++ path) (substEach (only n r) args) tail] := by
        refine substStem_of_head fun k hk => ?_
        have hne := ((htype.proper b (by simp)).stem hstem).1
        rw [List.head?_append_of_ne_nil _ hne] at hk
        exact (hkept m _ hs b (by simp)).head hstem k hk
      rw [substStem_based hstem hs, substStem_based hstem hboth, substPieces_append, hfront,
        hsingle, hlast]

omit hσ hkept in
theorem mapWords_word_word {d : Text} (hapart : (Piece.array d).Apart σ n) :
    (d.mapWords σ.word).mapWords (only n r).word = d.mapWords (σ.orElse (only n r)).word := by
  have hother : ∀ w, w ≠ n → (only n r).word w = w := by
    intro w hw
    rw [Substitution.word, only, if_neg hw]
    rfl
  cases hapart with
  | array words =>
    rw [Text.mapWords_mapWords]
    refine Text.mapWords_congr fun w hw hne => ?_
    have hboth : σ.orElse (only n r) w = (σ w).or (only n r w) := rfl
    cases hs : σ w with
    | none =>
      have hword : Text.mapWords (only n r).word w = (only n r).word w := by
        rw [Text.mapWords_word (Text.isIdentChar_of_mem_words hw), Text.mapWord, if_neg hne]
      have hleft : σ.word w = w := by
        rw [Substitution.word, hs]
        rfl
      rw [hs, Option.none_or] at hboth
      rw [hleft, hword, Substitution.word, Substitution.word, hboth]
    | some s =>
      have hleft : σ.word w = piecesText s := by
        rw [Substitution.word, hs]
        rfl
      rw [hs, Option.some_or] at hboth
      rw [hleft, Text.mapWords_eq_self fun v hv _ => hother v fun he =>
        words w hw s hs (he ▸ hv), Substitution.word, hboth]
      rfl

theorem substPieces_subst (hp : p.Proper) (hapart : p.Apart σ n) :
    substPieces (only n r) (p.subst σ) = p.subst (σ.orElse (only n r)) := by
  induction hp with
  | fixed => rfl
  | array =>
    show [Piece.array _] = _
    rw [mapWords_word_word hapart]
    rfl
  | function joined proper ih =>
    cases hapart with
    | function apart =>
      show [Piece.function _] = _
      rw [substEach_of_pieces fun t ht p hp => ih t ht p hp (apart t ht p hp)]
      rfl
  | name nonempty components => exact substPieces_substPath hσ hkept nonempty components hapart
  | template nonempty components joined proper closed ends simple ih =>
    cases hapart with
    | template apart =>
      rw [Piece.subst, substPieces_substStem hσ hkept,
        substEach_of_pieces fun t ht p hp => ih t ht p hp (apart t ht p hp)]
      rfl

/-- One more name becomes a type after the others as it does together with them. -/
theorem substPieces_substPieces (ht : ∀ p ∈ t, p.Proper) (hapart : ∀ p ∈ t, p.Apart σ n) :
    substPieces (only n r) (substPieces σ t) = substPieces (σ.orElse (only n r)) t :=
  substPieces_of_pieces fun p hp => substPieces_subst hσ hkept (ht p hp) (hapart p hp)

end Step

/-- No round meets what the ones before it have put in, nor a name with scopes where they have put
something in. -/
def Undisturbed (t : Pieces) : (before : List Round) → List Round → Prop
  | _, [] => True
  | before, x :: rounds =>
    ((∀ y ∈ before, ∀ p ∈ y.2, p.Kept (only x.1 x.2)) ∧
      ∀ p ∈ t, p.Apart (allAtOnce before) x.1) ∧ Undisturbed t (before ++ [x]) rounds

theorem allAtOnce_cons (x : Round) (rounds : List Round) (n : Text) :
    allAtOnce (x :: rounds) n = if n = x.1 then some x.2 else allAtOnce rounds n := by
  obtain ⟨m, r⟩ := x
  by_cases hn : n = m
  · simp [allAtOnce, hn]
  · rw [allAtOnce, List.lookup_cons, beq_eq_false_iff_ne.mpr hn, if_neg hn]
    rfl

theorem mem_of_allAtOnce (h : allAtOnce rounds n = some r) : (n, r) ∈ rounds := by
  obtain ⟨front, back, rfl, -⟩ := List.lookup_eq_some_iff.mp h
  simp

theorem proper_allAtOnce (h : ∀ x ∈ rounds, IsRound x) : (allAtOnce rounds).Proper :=
  fun _ _ hr => ⟨(h _ (mem_of_allAtOnce hr)).isType, (h _ (mem_of_allAtOnce hr)).based⟩

theorem allAtOnce_concat (x : Round) :
    allAtOnce (before ++ [x]) = (allAtOnce before).orElse (only x.1 x.2) := by
  funext n
  unfold allAtOnce Substitution.orElse only
  rw [List.lookup_append]
  exact congrArg _ (allAtOnce_cons x [] n)

/-- Rounds that meet nothing of one another do what one substitution does. -/
theorem substRounds_eq_allAtOnce (hbefore : ∀ x ∈ before, IsRound x)
    (hrounds : ∀ x ∈ rounds, IsRound x) (ht : IsType t) (h : Undisturbed t before rounds) :
    substRounds rounds (substPieces (allAtOnce before) t) =
      substPieces (allAtOnce (before ++ rounds)) t := by
  induction rounds generalizing before with
  | nil => rw [List.append_nil]; rfl
  | cons x rounds ih =>
    obtain ⟨hx, hrest⟩ := List.forall_mem_cons.mp hrounds
    obtain ⟨⟨hkept, hapart⟩, h⟩ := h
    have hstep : substPieces (only x.1 x.2) (substPieces (allAtOnce before) t) =
        substPieces (allAtOnce (before ++ [x])) t := by
      rw [allAtOnce_concat]
      exact substPieces_substPieces (proper_allAtOnce hbefore)
        (fun m s hs => hkept _ (mem_of_allAtOnce hs)) ht.proper hapart
    have hmore : ∀ y ∈ before ++ [x], IsRound y := fun y hy =>
      (List.mem_append.mp hy).elim (hbefore y) fun hy => List.mem_singleton.mp hy ▸ hx
    rw [substRounds, hstep, ih hmore hrest h, List.append_assoc]
    rfl

theorem kept_of_none (h : ∀ n, σ n = none) (hp : p.Proper) : p.Kept σ := by
  induction hp with
  | fixed => exact .fixed
  | array => exact .array fun w _ => h w
  | function joined proper ih => exact .function ih
  | name => exact .name fun n _ => h n
  | template nonempty components joined proper closed ends simple ih =>
    refine .template (fun n _ r hr => ?_) ih
    rw [h n] at hr
    cases hr

theorem substRounds_undisturbed (hrounds : ∀ x ∈ rounds, IsRound x) (ht : IsType t)
    (h : Undisturbed t [] rounds) :
    substRounds rounds t = substPieces (allAtOnce rounds) t := by
  have hfirst : substPieces (allAtOnce []) t = t :=
    substPieces_of_kept (fun p hp => kept_of_none (fun _ => rfl) (ht.proper p hp)) ht.proper
  have hall := substRounds_eq_allAtOnce (List.forall_mem_nil _) hrounds ht h
  rwa [hfirst] at hall

end BindingTypes.CType
