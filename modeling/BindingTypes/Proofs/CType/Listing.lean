import BindingTypes.Proofs.CType.Chain
import BindingTypes.Proofs.CType.Written

namespace BindingTypes.CType

/-- A text whose parentheses close and whose commas all stand inside them. -/
structure Listable (t : Text) : Prop where
  balanced : Balanced t
  pieces : ∀ u, commaPieces 0 (t ++ u) = (t ++ (commaPieces 0 u).1, (commaPieces 0 u).2)

variable {c : Char} {k m : Nat} {t u x : Text} {ps : List CType}

theorem balanced_of_unbracketed (h : Unbracketed t) : Balanced t :=
  balanced_of_notMem (fun hm => h '(' hm (by decide)) fun hm => h ')' hm (by decide)

theorem commaJoin_singleton (t : CType) : Text.commaJoin [t] = t := by simp [Text.commaJoin]

theorem commaPieces_other (hcomma : c ≠ ',') (hopen : c ≠ '(') (hclose : c ≠ ')') (k : Nat)
    (t : Text) : commaPieces k (c :: t) = (c :: (commaPieces k t).1, (commaPieces k t).2) := by
  rw [commaPieces, if_neg fun h => hcomma h.1, if_neg hopen, if_neg hclose]

/-- No comma inside parentheses separates. -/
theorem commaPieces_inside (h : parensAfter k x = some m) (u : Text) :
    commaPieces (k + 1) (x ++ u) =
      (x ++ (commaPieces (m + 1) u).1, (commaPieces (m + 1) u).2) := by
  induction x generalizing k with
  | nil =>
    cases h
    rfl
  | cons c x ih =>
    rw [parensAfter_cons] at h
    obtain ⟨n, hn, h⟩ := Option.bind_eq_some_iff.mp h
    rw [List.cons_append, commaPieces, if_neg fun h => Nat.succ_ne_zero k h.2,
      depth_of_parensStep (parensStep_add hn 1), ih h]
    rfl

namespace Listable

theorem nil : Listable [] := ⟨rfl, fun _ => rfl⟩

theorem append (ht : Listable t) (hu : Listable u) : Listable (t ++ u) where
  balanced := ht.balanced.append hu.balanced
  pieces v := by rw [List.append_assoc, ht.pieces, hu.pieces, List.append_assoc]

theorem of_plain (h : ∀ c ∈ t, c ≠ ',' ∧ c ≠ '(' ∧ c ≠ ')') : Listable t where
  balanced := balanced_of_notMem (fun hm => (h _ hm).2.1 rfl) fun hm => (h _ hm).2.2 rfl
  pieces u := by
    induction t with
    | nil => rfl
    | cons c t ih =>
      obtain ⟨⟨hcomma, hopen, hclose⟩, ht⟩ := List.forall_mem_cons.mp h
      rw [List.cons_append, commaPieces_other hcomma hopen hclose, ih ht]
      rfl

theorem group (hx : Balanced x) : Listable ('(' :: (x ++ [')'])) where
  balanced := hx.group
  pieces u := by
    have hinside := commaPieces_inside (hx.after 0) (')' :: u)
    have hopen : ∀ v, commaPieces 0 ('(' :: v) = ('(' :: (commaPieces 1 v).1, (commaPieces 1 v).2) :=
      fun _ => rfl
    have hclose : commaPieces 1 (')' :: u) = (')' :: (commaPieces 0 u).1, (commaPieces 0 u).2) := rfl
    rw [List.cons_append, List.append_assoc, List.singleton_append, hopen, hinside, hclose]
    simp

theorem written (hc : c ≠ ',' ∧ c ≠ '(' ∧ c ≠ ')') (hx : Balanced x) :
    Listable (CType.written c x) := by
  have hparts : CType.written c x = [c] ++ ('(' :: (x ++ [')']) ++ ['.']) := by
    simp [CType.written]
  have hletter : Listable [c] := of_plain fun d hd => by
    rw [List.mem_singleton.mp hd]
    exact hc
  have hdot : Listable ['.'] := of_plain fun d hd => by
    rw [List.mem_singleton.mp hd]
    decide
  rw [hparts]
  exact hletter.append ((group hx).append hdot)

theorem flatten {ts : List Text} (h : ∀ t ∈ ts, Listable t) : Listable ts.flatten :=
  Text.flatten_of_forall nil append h

end Listable

/-- Listed types are read back as they were joined; an empty text alone is read as no type. -/
theorem listed_commaJoin_of_ne (h : ∀ p ∈ ps, Listable p) (hne : ps ≠ [[]]) :
    listed (Text.commaJoin ps) = ps := by
  have hpieces : ∀ p qs, (∀ q ∈ p :: qs, Listable q) →
      commaPieces 0 (Text.commaJoin (p :: qs)) = (p, qs) := by
    intro p qs hall
    induction qs generalizing p with
    | nil =>
      have hp := (hall p List.mem_cons_self).pieces []
      simpa [Text.commaJoin, commaPieces] using hp
    | cons q qs ih =>
      obtain ⟨hp, hqs⟩ := List.forall_mem_cons.mp hall
      have hrest := ih q hqs
      have hcomma : ∀ u, commaPieces 0 (',' :: u) = ([], (commaPieces 0 u).1 :: (commaPieces 0 u).2) :=
        fun _ => rfl
      rw [Text.commaJoin, List.intercalate_cons_cons, List.append_assoc, hp.pieces,
        List.singleton_append, hcomma]
      rw [Text.commaJoin] at hrest
      rw [hrest]
      simp
  cases ps with
  | nil => rfl
  | cons p qs =>
    have hjoin : Text.commaJoin (p :: qs) ≠ [] := by
      cases qs with
      | nil => simpa [Text.commaJoin] using hne
      | cons q qs => simp [Text.commaJoin]
    rw [listed, if_neg hjoin, hpieces p qs h]

theorem listed_commaJoin (h : ∀ p ∈ ps, Listable p) (hne : ∀ p ∈ ps, p ≠ []) :
    listed (Text.commaJoin ps) = ps := by
  refine listed_commaJoin_of_ne h ?_
  rintro rfl
  exact hne [] List.mem_cons_self rfl

/-- A comma behind closed parentheses separates. -/
theorem commaPieces_append (h : parensAfter k t = some 0) (u : Text) :
    commaPieces k (t ++ ',' :: u) = ((commaPieces k t).1,
      (commaPieces k t).2 ++ (commaPieces 0 u).1 :: (commaPieces 0 u).2) := by
  induction t generalizing k with
  | nil =>
    cases h
    rfl
  | cons c t ih =>
    rw [parensAfter_cons] at h
    obtain ⟨n, hn, h⟩ := Option.bind_eq_some_iff.mp h
    rw [List.cons_append, commaPieces, commaPieces]
    by_cases hc : c = ',' ∧ k = 0
    · obtain ⟨rfl, rfl⟩ := hc
      cases hn
      rw [if_pos ⟨rfl, rfl⟩, if_pos ⟨rfl, rfl⟩, ih h]
      rfl
    · rw [if_neg hc, if_neg hc, depth_of_parensStep hn, ih h]

/-- The pieces of joined texts are pieces of the texts. -/
theorem mem_listed_commaJoin {p : Text} (hb : ∀ a ∈ ps, Balanced a)
    (hp : p ∈ listed (Text.commaJoin ps)) : p = [] ∨ ∃ a ∈ ps, p ∈ listed a := by
  have hpieces : ∀ t, p ∈ (commaPieces 0 t).1 :: (commaPieces 0 t).2 → p = [] ∨ p ∈ listed t := by
    intro t hp
    by_cases ht : t = []
    · subst ht
      exact Or.inl (List.mem_singleton.mp hp)
    · rw [listed, if_neg ht]
      exact Or.inr hp
  have hjoin : ∀ a qs, (∀ q ∈ a :: qs, Balanced q) →
      p ∈ (commaPieces 0 (Text.commaJoin (a :: qs))).1 ::
        (commaPieces 0 (Text.commaJoin (a :: qs))).2 →
      p = [] ∨ ∃ q ∈ a :: qs, p ∈ listed q := by
    intro a qs hall hp
    induction qs generalizing a with
    | nil =>
      rw [commaJoin_singleton] at hp
      exact (hpieces a hp).imp id fun h => ⟨a, List.mem_cons_self, h⟩
    | cons q qs ih =>
      obtain ⟨ha, hqs⟩ := List.forall_mem_cons.mp hall
      have hcons : Text.commaJoin (a :: q :: qs) = a ++ ',' :: Text.commaJoin (q :: qs) := by
        rw [Text.commaJoin, List.intercalate_cons_cons, List.append_assoc]
        rfl
      rw [hcons, commaPieces_append ha, ← List.cons_append] at hp
      rcases List.mem_append.mp hp with hp | hp
      · exact (hpieces a hp).imp id fun h => ⟨a, List.mem_cons_self, h⟩
      · refine (ih q hqs hp).imp id ?_
        rintro ⟨b, hb, hp⟩
        exact ⟨b, List.mem_cons_of_mem _ hb, hp⟩
  unfold listed at hp
  split at hp
  · cases hp
  · cases ps with
    | nil => exact absurd rfl ‹_›
    | cons a qs => exact hjoin a qs hb hp

theorem past_plain {d : Depth} (h : Unbracketed t) : d.past t = some d := by
  refine foldlM_stays fun c hc => ?_
  have hplain : Unbracketed [c] := List.forall_mem_singleton.mpr (h c hc)
  obtain ⟨hdot, hopen, hclose, hless, hgreater⟩ := hplain.head
  rw [Depth.pastStep, if_neg fun h => hdot h.1, Depth.step, if_neg hopen, if_neg hclose,
    if_neg hless, if_neg hgreater, ite_self]

/-- Where no element ends inside a text, the whole text is the next one. -/
theorem next_of_past {d : Depth} (h : Depth.zero.past t = some d) (hd : d.parens = 0) :
    next t = .ok (t, []) := by
  have hcut := cutElement_past h []
  rw [List.append_nil, cutElement, if_pos hd] at hcut
  rw [next_eq_ok_iff, hcut]
  simp [Except.map]

theorem elements_of_past (h : Depth.zero.past t = some .zero) (ht : t ≠ []) :
    elements t = .ok [t] := by
  rw [elements_of_next (next_of_past h rfl) ht, elements_nil]
  rfl

theorem argumentsWithin_of_arguments (h : arguments t = .ok ps) :
    ∃ l, argumentsWithin t = .ok l ∧ l.map (·.1) = ps := by
  refine ⟨ps.attach.map fun p => ⟨p.1, length_lt_of_mem_arguments h p.2⟩, ?_, ?_⟩
  · unfold argumentsWithin
    split
    · rename_i f hf
      cases hf.symm.trans h
    · rename_i qs hqs
      cases hqs.symm.trans h
      rfl
  · rw [List.map_map]
    exact List.attach_map_subtype_val _

theorem elementsWithin_of_elements {es : List Text} (h : elements t = .ok es) :
    ∃ l, elementsWithin t = .ok l ∧ l.map (·.1) = es := by
  refine ⟨es.attach.map fun e => ⟨e.1, length_le_of_mem_elements h e.2⟩, ?_, ?_⟩
  · unfold elementsWithin
    split
    · rename_i f hf
      cases hf.symm.trans h
    · rename_i fs hfs
      cases hfs.symm.trans h
      rfl
  · rw [List.map_map]
    exact List.attach_map_subtype_val _

theorem elementsWithin_of_error {f : Fault} (h : elements t = .error f) :
    elementsWithin t = .error f := by
  unfold elementsWithin
  split
  · rename_i f' hf
    cases hf.symm.trans h
    rfl
  · rename_i es hes
    cases hes.symm.trans h

theorem templateWithin_of_error {f : Fault} (h : templateParts t = .error f) :
    templateWithin t = .error f := by
  unfold templateWithin
  split
  · rename_i f' hf
    cases hf.symm.trans h
    rfl
  · rename_i hnone
    cases hnone.symm.trans h
  · rename_i parts hparts
    cases hparts.symm.trans h

theorem templateWithin_of_none (h : templateParts t = .ok none) : templateWithin t = .ok none := by
  unfold templateWithin
  split
  · rename_i f hf
    cases hf.symm.trans h
  · rfl
  · rename_i parts hparts
    cases hparts.symm.trans h

theorem templateWithin_of_templateParts {parts : TemplateParts}
    (h : templateParts t = .ok (some parts)) :
    ∃ within, templateWithin t = .ok (some within) ∧ within.stem.1 = parts.stem ∧
      within.arguments.map (·.1) = parts.arguments ∧ within.tail = parts.tail := by
  refine ⟨⟨⟨parts.stem, (lengths_of_templateParts h).1⟩,
    parts.arguments.attach.map fun p => ⟨p.1,
      Nat.lt_of_le_of_lt (length_le_of_mem_listed p.2) (lengths_of_templateParts h).2⟩,
    parts.tail⟩, ?_, rfl, ?_, rfl⟩
  · unfold templateWithin
    split
    · rename_i f hf
      cases hf.symm.trans h
    · rename_i hnone
      cases hnone.symm.trans h
    · rename_i parts' hparts
      cases hparts.symm.trans h
      rfl
  · rw [List.map_map]
    exact List.attach_map_subtype_val _

/-- A walk over the elements with their bounds is one over the elements. -/
theorem concatMap_eq {f : { e : Text // e.length ≤ t.length } → Except Fault Text}
    {h : Text → Except Fault Text} (hf : ∀ e, f e = h e.1) :
    concatMap t f = ((scan t).1.mapM h >>= fun texts =>
      match (scan t).2 with
      | some fault => .error fault
      | none => .ok texts.flatten) := by
  have hall : ∀ l : List { e : Text // e.length ≤ t.length },
      l.mapM f = (l.map Subtype.val).mapM h := by
    intro l
    induction l with
    | nil => rfl
    | cons e l ih => rw [List.map_cons, List.mapM_cons, List.mapM_cons, hf, ih]
  unfold concatMap
  have hval : ((scan t).1.attach.map fun e =>
      (⟨e.1, length_le_of_mem_scan e.2⟩ : { e : Text // e.length ≤ t.length })).map Subtype.val =
        (scan t).1 := by
    rw [List.map_map]
    exact List.attach_map_subtype_val _
  rw [hall, hval]
  refine bind_congr fun texts => ?_
  cases (scan t).2 <;> rfl

end BindingTypes.CType
