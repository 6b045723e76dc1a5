import BindingTypes.Proofs.CType.Dotted

namespace BindingTypes.CType

/-- At some place more parentheses were closed than opened. -/
def ClosesUnopened (t : Text) : Prop := ∃ p, p <+: t ∧ p.count '(' < p.count ')'

/-- The parentheses do not pair up: one is closed that is not open, or their numbers differ. -/
def Unbalanced (t : Text) : Prop := ClosesUnopened t ∨ t.count '(' ≠ t.count ')'

/-- The depth behind a text; nothing where it closes a parenthesis that is not open. -/
def Depth.after (d : Depth) (t : Text) : Option Depth := t.foldlM Depth.step d

/-- The text ends with a dot that stands outside parentheses and angle brackets. -/
def EndsElement (t : Text) : Prop := ∃ x, t = x ++ ['.'] ∧ Depth.zero.after x = some .zero

variable {d d' : Depth} {k m : Nat} {c : Char} {s t x : Text} {es fs : List Text}

section Counts

theorem parensStep_count (h : parensStep k c = some m) :
    k + [c].count '(' = m + [c].count ')' := by
  unfold parensStep at h
  by_cases ho : c = '('
  · rw [if_pos ho] at h
    cases h
    simp [ho]
  · rw [if_neg ho] at h
    by_cases hc : c = ')'
    · rw [if_pos hc] at h
      split at h
      · cases h
      · cases h
        have hcount : [c].count '(' = 0 ∧ [c].count ')' = 1 := by simp [hc]
        omega
    · rw [if_neg hc] at h
      cases h
      simp [ho, hc]

theorem parensStep_eq_none (h : parensStep k c = none) : c = ')' ∧ k = 0 := by
  unfold parensStep at h
  split at h
  · cases h
  · split at h
    · rename_i hc
      split at h
      · rename_i hk
        exact ⟨hc, hk⟩
      · cases h
    · cases h

/-- What is open behind a text is what was open in front of it and what the text opens and does not
close. -/
theorem parensAfter_count (h : parensAfter k t = some m) :
    k + t.count '(' = m + t.count ')' := by
  induction t generalizing k with
  | nil =>
    cases h
    rfl
  | cons c cs ih =>
    rw [parensAfter_cons] at h
    obtain ⟨n, hn, h⟩ := Option.bind_eq_some_iff.mp h
    have hhead := parensStep_count hn
    have htail := ih h
    rw [← List.singleton_append, List.count_append, List.count_append]
    omega

theorem parensAfter_eq_none_iff :
    parensAfter k t = none ↔ ∃ p, p <+: t ∧ k + p.count '(' < p.count ')' := by
  constructor
  · intro h
    induction t generalizing k with
    | nil => cases h
    | cons c cs ih =>
      rw [parensAfter_cons] at h
      cases hn : parensStep k c with
      | none =>
        obtain ⟨rfl, rfl⟩ := parensStep_eq_none hn
        exact ⟨[')'], ⟨cs, rfl⟩, by decide⟩
      | some n =>
        rw [hn] at h
        obtain ⟨p, hp, hlt⟩ := ih h
        have hhead := parensStep_count hn
        refine ⟨c :: p, List.cons_prefix_cons.mpr ⟨rfl, hp⟩, ?_⟩
        rw [← List.singleton_append, List.count_append, List.count_append]
        omega
  · rintro ⟨p, ⟨u, rfl⟩, hlt⟩
    rw [parensAfter_append]
    cases hp : parensAfter k p with
    | none => rfl
    | some n =>
      have hcount := parensAfter_count hp
      omega

theorem closesUnopened_iff : ClosesUnopened t ↔ parensAfter 0 t = none := by
  simp only [ClosesUnopened, parensAfter_eq_none_iff, Nat.zero_add]

instance : DecidablePred ClosesUnopened := fun _ => decidable_of_iff _ closesUnopened_iff.symm

instance : DecidablePred Unbalanced := fun t =>
  inferInstanceAs (Decidable (ClosesUnopened t ∨ t.count '(' ≠ t.count ')'))

theorem balanced_iff : Balanced t ↔ ¬ Unbalanced t := by
  rw [Unbalanced, closesUnopened_iff, Balanced]
  cases h : parensAfter 0 t with
  | none => simp
  | some m =>
    have hcount := parensAfter_count h
    simp only [Option.some.injEq, reduceCtorEq, false_or]
    omega

end Counts

section Defects

/-- A defect of a text that is read with `k` parentheses open. -/
inductive HasDefect (k : Nat) (t : Text) : Defect → Prop
  | unopened (h : parensAfter k t = none) : HasDefect k t .unopened
  | unclosed {m : Nat} (h : parensAfter k t = some (m + 1)) : HasDefect k t .unclosed

theorem HasDefect.of_eq {j : Nat} {u : Text} {defect : Defect} (h : HasDefect k t defect)
    (heq : parensAfter j u = parensAfter k t) : HasDefect j u defect := by
  cases h with
  | unopened h => exact .unopened (heq.trans h)
  | unclosed h => exact .unclosed (heq.trans h)

/-- An element is cut off where all its parentheses are closed. -/
theorem parensAfter_of_cutElement {e rest : Text} (h : cutElement d t = .ok (e, rest)) :
    parensAfter d.parens t = parensAfter 0 rest := by
  have ht : t = e ++ rest := (append_of_cutElement h).symm
  rcases cutElement_cases h with ⟨x, rfl, hx⟩ | ⟨rfl, d', hpast, hp⟩
  · rw [ht, parensAfter_append, parensAfter_append, parensAfter_of_past hx]
    rfl
  · rw [ht, List.append_nil, parensAfter_of_past hpast, hp]
    rfl

theorem hasDefect_of_cutElement {defect : Defect} (h : cutElement d t = .error defect) :
    HasDefect d.parens t defect := by
  induction t generalizing d with
  | nil =>
    unfold cutElement at h
    split at h
    · cases h
    · rename_i hopen
      cases h
      obtain ⟨m, hm⟩ := Nat.exists_eq_succ_of_ne_zero hopen
      exact .unclosed (congrArg some hm)
  | cons c cs ih =>
    unfold cutElement at h
    split at h
    · cases h
    · cases hd : d.step c with
      | none =>
        rw [hd] at h
        cases h
        refine .unopened ?_
        rw [parensAfter_cons, ← parens_step, hd]
        rfl
      | some d' =>
        rw [hd] at h
        change (cutElement d' cs).map _ = _ at h
        cases hr : cutElement d' cs with
        | ok r =>
          rw [hr] at h
          cases h
        | error defect' =>
          rw [hr] at h
          cases h
          refine (ih hr).of_eq ?_
          rw [parensAfter_cons, parensStep_of_step hd]
          rfl

/-- A type that has no elements is reported from the element on that is malformed. -/
theorem hasDefect_of_elements {f : Fault} (h : elements t = .error f) :
    ∃ rest defect, f = .malformed rest defect ∧ rest <:+ t ∧ HasDefect 0 t defect := by
  induction hn : t.length using Nat.strongRecOn generalizing t with
  | ind n ih =>
    have ht : t ≠ [] := by
      rintro rfl
      rw [elements_nil] at h
      cases h
    cases hx : next t with
    | error f' =>
      obtain rfl : f' = f := Except.error.inj ((elements_of_error hx ht).symm.trans h)
      unfold next at hx
      split at hx
      · rename_i defect hcut
        cases hx
        exact ⟨t, defect, rfl, List.suffix_rfl, hasDefect_of_cutElement hcut⟩
      · cases hx
    | ok r =>
      obtain ⟨e, rest⟩ := r
      rw [elements_of_next hx ht] at h
      cases hr : elements rest with
      | ok es =>
        rw [hr] at h
        cases h
      | error f' =>
        rw [hr] at h
        cases h
        obtain ⟨tail, defect, rfl, hsuffix, hdefect⟩ := ih _ (hn ▸ next_rest_lt hx ht) hr rfl
        have hrest : rest <:+ t := ⟨e, next_append hx⟩
        exact ⟨tail, defect, rfl, hsuffix.trans hrest,
          hdefect.of_eq (parensAfter_of_cutElement (next_eq_ok_iff.mp hx))⟩

end Defects

section Joints

theorem after_of_past (h : d.past t = some d') : d.after t = some d' :=
  foldlM_follows id (fun hstep => (pastStep_eq_some hstep).2) h

theorem after_append (t u : Text) : d.after (t ++ u) = (d.after t).bind (Depth.after · u) :=
  List.foldlM_append

theorem Dotted.after {e : Text} (h : Dotted e) : Depth.zero.after e = some .zero := by
  obtain ⟨x, rfl, hx⟩ := h
  rw [after_append, after_of_past hx]
  rfl

theorem after_flatten (h : ∀ f ∈ fs, Dotted f) : Depth.zero.after fs.flatten = some .zero := by
  induction fs with
  | nil => rfl
  | cons f fs ih =>
    obtain ⟨hf, hfs⟩ := List.forall_mem_cons.mp h
    rw [List.flatten_cons, after_append, hf.after]
    exact ih hfs

theorem cutElement_of_single {e : Text} (h : elements e = .ok [e]) (hne : e ≠ []) :
    cutElement .zero e = .ok (e, []) := by
  cases hx : next e with
  | error f =>
    rw [elements_of_error hx hne] at h
    cases h
  | ok r =>
    obtain ⟨e', rest⟩ := r
    rw [elements_of_next hx hne] at h
    obtain ⟨tail, hr, he⟩ := map_eq_ok h
    obtain ⟨rfl, rfl⟩ := List.cons.inj he
    have hrest : [] = rest := flatten_of_elements hr
    rw [hrest]
    exact next_eq_ok_iff.mp hx

/-- The elements of a text that ends one are ended by their own dots, the last of them too. -/
theorem EndsElement.dotted (hs : EndsElement s) (h : elements s = .ok es) :
    ∀ e ∈ es, Dotted e := by
  obtain ⟨x, rfl, hx⟩ := hs
  obtain ⟨fs, b, rfl, hfs, hb, hne⟩ := elements_cases h (by simp)
  have hflat := flatten_of_elements h
  rw [List.flatten_append, List.flatten_singleton] at hflat
  suffices hdotted : Dotted b from
    List.forall_mem_append.mpr ⟨hfs, List.forall_mem_singleton.mpr hdotted⟩
  rcases cutElement_cases (cutElement_of_single hb hne) with hdotted | ⟨-, d', hpast, -⟩
  · exact hdotted
  · -- The dot would have ended the element in front of it.
    exfalso
    obtain ⟨y, c, rfl⟩ := (List.eq_nil_or_concat b).resolve_left hne
    rw [List.concat_eq_append, ← List.append_assoc] at hflat
    obtain ⟨hfront, hc⟩ := List.append_inj' hflat rfl
    obtain rfl : c = '.' := List.singleton_inj.mp hc
    have hy : Depth.zero.after y = some .zero := by
      rw [← hfront, after_append, after_flatten hfs] at hx
      exact hx
    rw [List.concat_eq_append, past_append] at hpast
    obtain ⟨n, hn, hpast⟩ := Option.bind_eq_some_iff.mp hpast
    have hzero : n = .zero := Option.some.inj ((after_of_past hn).symm.trans hy)
    rw [hzero] at hpast
    cases hpast

theorem EndsElement.elements_append (hs : EndsElement s) (h : elements s = .ok es) (t : CType) :
    elements (s ++ t) = (elements t).map (es ++ ·) := by
  have hflat := flatten_of_elements h
  rw [← hflat]
  exact elements_flatten (hs.dotted h) t

theorem single_of_mem_elements {e : Text} (h : elements s = .ok es) (he : e ∈ es) :
    elements e = .ok [e] := by
  have hs : s ≠ [] := by
    rintro rfl
    rw [elements_nil] at h
    cases h
    cases he
  obtain ⟨fs, b, rfl, hfs, hb, -⟩ := elements_cases h hs
  rcases List.mem_append.mp he with hmem | hmem
  · exact (hfs e hmem).single
  · rw [List.mem_singleton.mp hmem]
    exact hb

end Joints

/-- A type has elements unless its parentheses do not pair up, and then it is reported from the
element on that is malformed. The elements are the type in pieces that are not empty and have no
pieces of their own; behind a text that ends with an element any other type keeps its elements. -/
theorem elements_partition (s : CType) :
    ((∃ text defect, elements s = .error (.malformed text defect)) ↔ Unbalanced s) ∧
    (∀ f, elements s = .error f → ∃ rest, rest <:+ s ∧
      f = .malformed rest (if ClosesUnopened s then .unopened else .unclosed)) ∧
    (¬ Unbalanced s → ∃ es, elements s = .ok es ∧ es.flatten = s ∧
      (∀ e ∈ es, e ≠ [] ∧ elements e = .ok [e]) ∧
      (∃ f b, front s = .ok f ∧ base s = .ok b ∧ f ++ b = s) ∧
      ∀ t, EndsElement s → ¬ Unbalanced t →
        ∃ ts, elements t = .ok ts ∧ elements (s ++ t) = .ok (es ++ ts)) := by
  have hreport : ∀ f, elements s = .error f → ∃ rest, rest <:+ s ∧
      f = .malformed rest (if ClosesUnopened s then .unopened else .unclosed) := by
    intro f h
    obtain ⟨rest, defect, rfl, hrest, hdefect⟩ := hasDefect_of_elements h
    refine ⟨rest, hrest, ?_⟩
    cases hdefect with
    | unopened hnone => rw [if_pos (closesUnopened_iff.mpr hnone)]
    | unclosed hsome =>
      have hnot : ¬ ClosesUnopened s := by
        rw [closesUnopened_iff, hsome]
        exact Option.some_ne_none _
      rw [if_neg hnot]
  refine ⟨⟨?_, fun h => ?_⟩, hreport, fun h => ?_⟩
  · rintro ⟨text, defect, h⟩
    refine Decidable.byContradiction fun hbalanced => ?_
    obtain ⟨es, hes⟩ := elements_of_balanced (balanced_iff.mpr hbalanced)
    cases hes.symm.trans h
  · cases hes : elements s with
    | ok es => exact absurd h (balanced_iff.mp (balanced_of_elements hes))
    | error f =>
      obtain ⟨rest, -, rfl⟩ := hreport f hes
      exact ⟨rest, _, rfl⟩
  · obtain ⟨es, hes⟩ := elements_of_balanced (balanced_iff.mpr h)
    have hsplit : split s = .ok (es.dropLast.flatten, es.getLastD []) := by
      rw [split, hes]
      rfl
    have hfront : front s = .ok es.dropLast.flatten := by
      rw [front, hsplit]
      rfl
    have hbase : base s = .ok (es.getLastD []) := by
      rw [base, hsplit]
      rfl
    refine ⟨es, hes, flatten_of_elements hes, fun e he => ?_,
      ⟨_, _, hfront, hbase, split_append hsplit⟩, fun t hs ht => ?_⟩
    · exact ⟨ne_nil_of_mem_elements hes he, single_of_mem_elements hes he⟩
    · obtain ⟨ts, hts⟩ := elements_of_balanced (balanced_iff.mpr ht)
      refine ⟨ts, hts, ?_⟩
      rw [hs.elements_append hes, hts]
      rfl

/-- A parenthesis too many, and a member pointer in front of a function that returns a member of a
template class. -/
theorem elements_of_member_pointer :
    (∃ rest, rest <:+ "p.f(int)).int".toList ∧
      elements "p.f(int)).int".toList = .error (.malformed rest .unopened)) ∧
    ∃ es ts, elements "p.m(A<(x.y)>).".toList = .ok es ∧
      elements "f(int,p.T).B<(p.int,q)>::C".toList = .ok ts ∧
      elements "p.m(A<(x.y)>).f(int,p.T).B<(p.int,q)>::C".toList = .ok (es ++ ts) ∧
      es = ["p.".toList, "m(A<(x.y)>).".toList] := by
  constructor
  · obtain ⟨hiff, hreport, -⟩ := elements_partition "p.f(int)).int".toList
    obtain ⟨text, defect, h⟩ := hiff.mpr (by decide)
    obtain ⟨rest, hrest, hf⟩ := hreport _ h
    have hcloses : ClosesUnopened "p.f(int)).int".toList := by decide
    rw [hf, if_pos hcloses] at h
    exact ⟨rest, hrest, h⟩
  · obtain ⟨-, -, hok⟩ := elements_partition "p.m(A<(x.y)>).".toList
    obtain ⟨es, hes, -, -, -, hjoin⟩ := hok (by decide)
    have hends : EndsElement "p.m(A<(x.y)>).".toList := ⟨"p.m(A<(x.y)>)".toList, rfl, by decide⟩
    obtain ⟨ts, hts, happend⟩ := hjoin "f(int,p.T).B<(p.int,q)>::C".toList hends (by decide)
    have hpointer : Dotted "p.".toList := ⟨"p".toList, rfl, by decide⟩
    have hmember : Dotted "m(A<(x.y)>).".toList := ⟨"m(A<(x.y)>)".toList, rfl, by decide⟩
    have hparts := (hpointer.elements "m(A<(x.y)>).".toList).trans
      (congrArg (Except.map ("p.".toList :: ·)) hmember.single)
    refine ⟨es, ts, hes, hts, happend, ?_⟩
    exact Except.ok.inj (hes.symm.trans hparts)

end BindingTypes.CType
