import BindingTypes.QualifiedName

namespace BindingTypes.QualifiedName

theorem length_lt_of_suffix? {name rest : Text} (h : suffix? name = some rest) :
    rest.length < name.length := by
  obtain ⟨⟨c, rest'⟩, hcut, rfl⟩ := Option.map_eq_some_iff.mp h
  rw [append_of_cutFirst? hcut]
  simp only [List.length_append, List.length_cons]
  omega

theorem length_lt_of_scope? {name scope : Text} (h : scope? name = some scope) :
    scope.length < name.length := by
  obtain ⟨⟨scope', c⟩, hcut, rfl⟩ := Option.map_eq_some_iff.mp h
  exact length_lt_of_cutLast? hcut

/-- The components of a name, the outermost taken off again and again. -/
def componentsInward (name : Text) : List Text :=
  match _h : suffix? name with
  | none => [name]
  | some rest => (first? name).getD [] :: componentsInward rest
termination_by name.length
decreasing_by exact length_lt_of_suffix? _h

/-- The components of a name, the innermost taken off again and again. -/
def componentsOutward (name : Text) : List Text :=
  match _h : scope? name with
  | none => [last name]
  | some scope => componentsOutward scope ++ [last name]
termination_by name.length
decreasing_by exact length_lt_of_scope? _h

variable {d : Nat} {name c rest scope : Text}

/-- The last separator is the last one behind the first, or the first itself. -/
theorem cutLast?_eq (d : Nat) (name : Text) : cutLast? d name = (cutFirst? d name).map fun r =>
    ((cutLast? 0 r.2).map fun l => (r.1 ++ ':' :: ':' :: l.1, l.2)).getD r := by
  fun_induction cutFirst? d name with
  | case1 d => rw [cutLast?, Option.map_none]
  | case2 cs =>
    rw [cutLast?, Option.map_some]
    cases cutLast? 0 cs <;> rfl
  | case3 d c cs hcolons ih =>
    rw [cutLast?.eq_3 d c cs hcolons, ih, Option.map_map, Option.map_map]
    refine Option.map_congr fun r _ => ?_
    cases hlast : cutLast? 0 r.2 <;> simp [hlast]

theorem cutLast?_eq_none_iff : cutLast? d name = none ↔ cutFirst? d name = none := by
  rw [cutLast?_eq, Option.map_eq_none_iff]

/-- In front of a separator nothing depends on what stands behind it. -/
theorem cutFirst?_of_front (h : cutFirst? d name = some (c, rest)) (u : Text) :
    cutFirst? d c = none ∧ cutFirst? d (c ++ ':' :: ':' :: u) = some (c, u) := by
  fun_induction cutFirst? d name generalizing c rest with
  | case1 => cases h
  | case2 cs =>
    cases h
    exact ⟨by rw [cutFirst?], by rw [List.nil_append, cutFirst?]⟩
  | case3 d a cs hcolons ih =>
    obtain ⟨⟨c', rest'⟩, hcut, he⟩ := Option.map_eq_some_iff.mp h
    obtain ⟨rfl, rfl⟩ := Prod.mk.inj he
    obtain ⟨hnone, hsome⟩ := ih hcut
    obtain rfl := append_of_cutFirst? hcut
    -- the character next to `a` is the same one in all three texts, if there is one
    have hpart : ∀ cs', d = 0 → a = ':' → c' = ':' :: cs' → False := fun cs' hd ha hc =>
      hcolons (cs' ++ ':' :: ':' :: rest') hd ha (by rw [hc, List.cons_append])
    have hbehind : ∀ cs', d = 0 → a = ':' → c' ++ ':' :: ':' :: u = ':' :: cs' → False := by
      intro cs' hd ha hc
      cases c' with
      | nil => exact hcolons (':' :: rest') hd ha rfl
      | cons b c' =>
        obtain ⟨rfl, -⟩ := List.cons.inj hc
        exact hpart c' hd ha rfl
    constructor
    · rw [cutFirst?.eq_3 d a c' hpart, hnone, Option.map_none]
    · rw [List.cons_append, cutFirst?.eq_3 d a _ hbehind, hsome, Option.map_some]

theorem componentsInward_of_cutFirst? (h : cutFirst? 0 name = some (c, rest)) :
    componentsInward name = c :: componentsInward rest := by
  have hsuffix : suffix? name = some rest := by rw [suffix?, h, Option.map_some]
  rw [componentsInward]
  split
  · rename_i hnone
    cases hnone.symm.trans hsuffix
  · rename_i rest' hrest
    cases hrest.symm.trans hsuffix
    rw [first?, h]
    rfl

theorem componentsInward_unqualified (h : cutFirst? 0 name = none) :
    componentsInward name = [name] := by
  have hsuffix : suffix? name = none := by rw [suffix?, h, Option.map_none]
  rw [componentsInward]
  split
  · rfl
  · rename_i rest hrest
    cases hrest.symm.trans hsuffix

theorem componentsOutward_of_cutLast? (h : cutLast? 0 name = some (scope, c)) :
    componentsOutward name = componentsOutward scope ++ [c] := by
  have hscope : scope? name = some scope := by rw [scope?, h, Option.map_some]
  rw [componentsOutward]
  split
  · rename_i hnone
    cases hnone.symm.trans hscope
  · rename_i scope' hscope'
    cases hscope'.symm.trans hscope
    rw [last, h]
    rfl

theorem componentsOutward_unqualified (h : cutFirst? 0 name = none) :
    componentsOutward name = [name] := by
  have hcut : cutLast? 0 name = none := cutLast?_eq_none_iff.mpr h
  have hscope : scope? name = none := by rw [scope?, hcut, Option.map_none]
  rw [componentsOutward]
  split
  · rw [last, hcut]
    rfl
  · rename_i scope hscope'
    cases hscope'.symm.trans hscope

/-- What stands behind the first separator is taken apart from its end as if it were a name of its
own. -/
theorem componentsOutward_of_cutFirst? (h : cutFirst? 0 name = some (c, rest)) :
    componentsOutward name = c :: componentsOutward rest := by
  induction hn : rest.length using Nat.strongRecOn generalizing name rest with
  | ind n ih =>
    have hlast := cutLast?_eq 0 name
    rw [h, Option.map_some] at hlast
    cases hinner : cutLast? 0 rest with
    | none =>
      rw [hinner] at hlast
      rw [componentsOutward_of_cutLast? hlast,
        componentsOutward_unqualified (cutLast?_eq_none_iff.mp hinner),
        componentsOutward_unqualified (cutFirst?_of_front h []).1]
      rfl
    | some r =>
      obtain ⟨scope, d⟩ := r
      rw [hinner] at hlast
      have hscope : scope.length < n := hn ▸ length_lt_of_cutLast? hinner
      have hfront := ih scope.length hscope (cutFirst?_of_front h scope).2 rfl
      rw [componentsOutward_of_cutLast? hlast, componentsOutward_of_cutLast? hinner]
      show componentsOutward (c ++ ':' :: ':' :: scope) ++ [d] = _
      rw [hfront, List.cons_append]

/-- What holds of a name without separators, and of a name where it holds behind the first one, holds
of every name. -/
theorem component_induction {P : Text → Prop}
    (unqualified : ∀ name, cutFirst? 0 name = none → P name)
    (qualified : ∀ name c rest, cutFirst? 0 name = some (c, rest) → P rest → P name)
    (name : Text) : P name := by
  induction hn : name.length using Nat.strongRecOn generalizing name with
  | ind n ih =>
    cases h : cutFirst? 0 name with
    | none => exact unqualified name h
    | some r =>
      obtain ⟨c, rest⟩ := r
      have hlt : rest.length < n := by
        rw [← hn, append_of_cutFirst? h]
        simp only [List.length_append, List.length_cons]
        omega
      exact qualified name c rest h (ih rest.length hlt rest rfl)

theorem componentsInward_ne_nil (name : Text) : componentsInward name ≠ [] := by
  cases h : cutFirst? 0 name with
  | none => simp [componentsInward_unqualified h]
  | some r => simp [componentsInward_of_cutFirst? h]

theorem componentsOutward_eq (name : Text) : componentsOutward name = componentsInward name := by
  induction name using component_induction with
  | unqualified name h => rw [componentsOutward_unqualified h, componentsInward_unqualified h]
  | qualified name c rest h ih =>
    rw [componentsOutward_of_cutFirst? h, componentsInward_of_cutFirst? h, ih]

theorem intercalate_componentsInward (name : Text) :
    List.intercalate "::".toList (componentsInward name) = name := by
  induction name using component_induction with
  | unqualified name h => simp [componentsInward_unqualified h]
  | qualified name c rest h ih =>
    obtain ⟨d, ds, hds⟩ := List.exists_cons_of_ne_nil (componentsInward_ne_nil rest)
    rw [hds] at ih
    rw [componentsInward_of_cutFirst? h, hds, List.intercalate_cons_cons, ih,
      append_of_cutFirst? h, List.append_assoc]
    rfl

theorem unqualified_of_mem_componentsInward (name : Text) :
    ∀ c ∈ componentsInward name, isQualified c = false := by
  induction name using component_induction with
  | unqualified name h => simp [componentsInward_unqualified h, isQualified, h]
  | qualified name c rest h ih =>
    have hc : isQualified c = false := by
      rw [isQualified, (cutFirst?_of_front h []).1]
      rfl
    rw [componentsInward_of_cutFirst? h]
    exact List.forall_mem_cons.mpr ⟨hc, ih⟩

theorem isQualified_iff_length (name : Text) :
    isQualified name = true ↔ 1 < (componentsInward name).length := by
  unfold isQualified
  cases h : cutFirst? 0 name with
  | none => simp [componentsInward_unqualified h]
  | some r =>
    have hpos := List.length_pos_iff.mpr (componentsInward_ne_nil r.2)
    simp [componentsInward_of_cutFirst? h, hpos]

/-- No bracket stays open: from any character on, at least as many brackets are closed as opened. -/
def LeavesNoneOpen (t : Text) : Prop :=
  ∀ s, s <:+ t → s.countP (· ∈ "<(".toList) ≤ s.countP (· ∈ ">)".toList)

/-- A `::` that stands outside brackets between the two texts. -/
structure Separates (name front rest : Text) : Prop where
  text : name = front ++ ':' :: ':' :: rest
  outside : LeavesNoneOpen front

theorem leavesNoneOpen_cons {a : Char} {t : Text} : LeavesNoneOpen (a :: t) ↔
    (a :: t).countP (· ∈ "<(".toList) ≤ (a :: t).countP (· ∈ ">)".toList) ∧ LeavesNoneOpen t := by
  constructor
  · exact fun h => ⟨h _ List.suffix_rfl, fun s hs => h s (hs.trans (List.suffix_cons a t))⟩
  · rintro ⟨hwhole, hrest⟩ s hs
    rcases List.suffix_cons_iff.mp hs with rfl | hs
    · exact hwhole
    · exact hrest s hs

theorem depthAfter_eq (d : Nat) (a : Char) : depthAfter d a =
    d + (if a ∈ "<(".toList then 1 else 0) - (if a ∈ ">)".toList then 1 else 0) := by
  have hopen : a ∈ "<(".toList ↔ a = '<' ∨ a = '(' := by simp
  have hclose : a ∈ ">)".toList ↔ a = '>' ∨ a = ')' := by simp
  simp only [hopen, hclose]
  unfold depthAfter
  split
  · rename_i h
    rcases h with rfl | rfl <;> simp
  · split <;> simp

/-- The depth comes down to zero just where all brackets are closed. -/
theorem depth_eq_zero_iff (d : Nat) (t : Text) : t.foldl depthAfter d = 0 ↔
    d + t.countP (· ∈ "<(".toList) ≤ t.countP (· ∈ ">)".toList) ∧ LeavesNoneOpen t := by
  induction t generalizing d with
  | nil => simp [LeavesNoneOpen]
  | cons a t ih =>
    have hself : LeavesNoneOpen t →
        t.countP (· ∈ "<(".toList) ≤ t.countP (· ∈ ">)".toList) := fun h => h t List.suffix_rfl
    rw [List.foldl_cons, ih, depthAfter_eq, leavesNoneOpen_cons, List.countP_cons,
      List.countP_cons]
    simp only [decide_eq_true_eq]
    constructor
    · rintro ⟨hle, hrest⟩
      have hclosed := hself hrest
      exact ⟨by omega, by omega, hrest⟩
    · rintro ⟨hle, -, hrest⟩
      have hclosed := hself hrest
      exact ⟨by omega, hrest⟩

theorem leavesNoneOpen_iff (t : Text) : LeavesNoneOpen t ↔ t.foldl depthAfter 0 = 0 := by
  rw [depth_eq_zero_iff, Nat.zero_add]
  exact ⟨fun h => ⟨h t List.suffix_rfl, h⟩, And.right⟩

/-- What is cut stands at depth zero around the first `::` there. -/
theorem depth_of_cutFirst? (h : cutFirst? d name = some (c, rest)) :
    c.foldl depthAfter d = 0 ∧ ∀ f r, name = f ++ ':' :: ':' :: r → f.foldl depthAfter d = 0 →
      c.length ≤ f.length := by
  fun_induction cutFirst? d name generalizing c rest with
  | case1 => cases h
  | case2 cs =>
    cases h
    exact ⟨rfl, fun f r _ _ => Nat.zero_le _⟩
  | case3 d a cs hcolons ih =>
    obtain ⟨⟨c', rest'⟩, hcut, he⟩ := Option.map_eq_some_iff.mp h
    cases he
    obtain ⟨hdepth, hfirst⟩ := ih hcut
    refine ⟨hdepth, fun f r hf hzero => ?_⟩
    cases f with
    | nil =>
      obtain ⟨rfl, rfl⟩ := List.cons.inj hf
      exact absurd rfl (hcolons r hzero rfl)
    | cons b f =>
      obtain ⟨rfl, hrest⟩ := List.cons.inj hf
      exact Nat.succ_le_succ (hfirst f r hrest hzero)

theorem depth_of_cutFirst?_none (h : cutFirst? d name = none) {f r : Text}
    (hf : name = f ++ ':' :: ':' :: r) : f.foldl depthAfter d ≠ 0 := by
  fun_induction cutFirst? d name generalizing f with
  | case1 => simp at hf
  | case2 cs => cases h
  | case3 d a cs hcolons ih =>
    intro hzero
    cases f with
    | nil =>
      obtain ⟨rfl, rfl⟩ := List.cons.inj hf
      exact absurd rfl (hcolons r hzero rfl)
    | cons b f =>
      obtain ⟨rfl, hrest⟩ := List.cons.inj hf
      exact ih (Option.map_eq_none_iff.mp h) hrest hzero

theorem separates_iff {f r : Text} :
    Separates name f r ↔ name = f ++ ':' :: ':' :: r ∧ f.foldl depthAfter 0 = 0 :=
  ⟨fun h => ⟨h.text, (leavesNoneOpen_iff f).mp h.outside⟩,
    fun h => ⟨h.1, (leavesNoneOpen_iff f).mpr h.2⟩⟩

/-- A name is qualified just where a `::` stands outside brackets. -/
theorem isQualified_iff : isQualified name = true ↔ ∃ f r, Separates name f r := by
  unfold isQualified
  cases h : cutFirst? 0 name with
  | none =>
    refine ⟨nofun, fun ⟨f, r, hsep⟩ => ?_⟩
    obtain ⟨htext, hzero⟩ := separates_iff.mp hsep
    exact absurd hzero (depth_of_cutFirst?_none h htext)
  | some cut => exact ⟨fun _ => ⟨cut.1, cut.2, separates_iff.mpr
      ⟨append_of_cutFirst? h, (depth_of_cutFirst? h).1⟩⟩, fun _ => rfl⟩

/-- The first cut is at the first `::` outside brackets. -/
theorem cutFirst?_eq_some_iff : cutFirst? 0 name = some (c, rest) ↔
    Separates name c rest ∧ ∀ f r, Separates name f r → c.length ≤ f.length := by
  constructor
  · intro h
    obtain ⟨hzero, hfirst⟩ := depth_of_cutFirst? h
    refine ⟨separates_iff.mpr ⟨append_of_cutFirst? h, hzero⟩, fun f r hsep => ?_⟩
    obtain ⟨htext, hf⟩ := separates_iff.mp hsep
    exact hfirst f r htext hf
  · rintro ⟨hsep, hfirst⟩
    obtain ⟨⟨f, r⟩, hcut⟩ := Option.isSome_iff_exists.mp (isQualified_iff.mpr ⟨c, rest, hsep⟩)
    obtain ⟨hzero, hmin⟩ := depth_of_cutFirst? hcut
    obtain ⟨htext, hc⟩ := separates_iff.mp hsep
    have hf := append_of_cutFirst? hcut
    have hle := hfirst f r (separates_iff.mpr ⟨hf, hzero⟩)
    obtain ⟨rfl, heq⟩ := List.append_inj (htext.symm.trans hf)
      (Nat.le_antisymm hle (hmin c rest htext hc))
    cases heq
    exact hcut

/-- The number of colons that a text ends with. -/
def lastColons (t : Text) : Nat := (t.reverse.takeWhile (· = ':')).length

theorem lastColons_append (t u : Text) : lastColons (t ++ u) =
    if lastColons u = u.length then u.length + lastColons t else lastColons u := by
  unfold lastColons
  rw [List.reverse_append, List.takeWhile_append, List.length_reverse]
  split
  · rw [List.length_append, List.length_reverse]
  · rfl

/-- In front of the first cut stands no colon. -/
theorem lastColons_of_cutFirst? (h : cutFirst? 0 name = some (c, rest)) : lastColons c = 0 := by
  rcases List.eq_nil_or_concat c with rfl | ⟨c', a, rfl⟩
  · rfl
  rw [List.concat_eq_append] at h ⊢
  have hne : a ≠ ':' := by
    rintro rfl
    obtain ⟨hzero, hfirst⟩ := depth_of_cutFirst? h
    rw [List.foldl_append] at hzero
    have hle := hfirst c' (':' :: rest) (by simp [append_of_cutFirst? h]) hzero
    rw [List.length_append] at hle
    exact Nat.not_succ_le_self _ hle
  rw [lastColons, List.reverse_append]
  simp [hne]

theorem lastColons_behind (hc : lastColons c = 0) (t : Text) :
    lastColons (c ++ ':' :: ':' :: t) % 2 = lastColons t % 2 := by
  have hwhole := lastColons_append c ("::".toList ++ t)
  have hlength : ("::".toList ++ t).length = t.length + 2 := by simp
  have htwo : lastColons "::".toList = 2 := rfl
  rw [lastColons_append "::".toList t, hc, hlength, htwo] at hwhole
  have hsame : c ++ ':' :: ':' :: t = c ++ ("::".toList ++ t) := rfl
  rw [hsame, hwhole]
  split <;> split <;> omega

/-- What separates a name is the first cut, or begins in that, or separates what stands behind. -/
theorem separates_cases {f r : Text} (h : cutFirst? 0 name = some (c, rest))
    (hsep : Separates name f r) :
    f = c ∧ r = rest ∨ f = c ++ [':'] ∨ ∃ l, f = c ++ ':' :: ':' :: l ∧ Separates rest l r := by
  obtain ⟨hzero, hfirst⟩ := depth_of_cutFirst? h
  obtain ⟨htext, hf⟩ := separates_iff.mp hsep
  have hle := hfirst f r htext hf
  rw [append_of_cutFirst? h] at htext
  obtain ⟨v, rfl⟩ : c <+: f := List.prefix_of_prefix_length_le (List.prefix_append _ _)
    (htext.symm ▸ List.prefix_append f _) hle
  rw [List.append_assoc] at htext
  have hv := List.append_cancel_left htext
  cases v with
  | nil =>
    cases hv
    exact Or.inl ⟨List.append_nil c, rfl⟩
  | cons a v =>
    obtain ⟨rfl, hbehind⟩ := List.cons.inj hv
    cases v with
    | nil => exact Or.inr (Or.inl rfl)
    | cons b l =>
      obtain ⟨rfl, hrest⟩ := List.cons.inj hbehind
      rw [List.foldl_append, hzero] at hf
      exact Or.inr (Or.inr ⟨l, rfl, separates_iff.mpr ⟨hrest, hf⟩⟩)

theorem separates_behind {f r : Text} (h : cutFirst? 0 name = some (c, rest))
    (hsep : Separates rest f r) : Separates name (c ++ ':' :: ':' :: f) r := by
  obtain ⟨htext, hf⟩ := separates_iff.mp hsep
  refine separates_iff.mpr ⟨?_, ?_⟩
  · rw [append_of_cutFirst? h, htext]
    simp
  · rw [List.foldl_append, (depth_of_cutFirst? h).1]
    exact hf

/-- The last cut is at a `::` outside brackets behind which there is none. In a run of colons every
second one begins a `::`. -/
theorem cutLast?_eq_some_iff {last : Text} : cutLast? 0 name = some (scope, last) ↔
    Separates name scope last ∧ isQualified last = false ∧ lastColons scope % 2 = 0 := by
  induction name using component_induction generalizing scope last with
  | unqualified name h =>
    have hnone : isQualified name = false := by
      rw [isQualified, h]
      rfl
    rw [cutLast?_eq_none_iff.mpr h]
    refine ⟨nofun, ?_⟩
    rintro ⟨hsep, -⟩
    rw [isQualified_iff.mpr ⟨_, _, hsep⟩] at hnone
    cases hnone
  | qualified name c rest h ih =>
    have hcolons := lastColons_of_cutFirst? h
    have hself : Separates name c rest := (cutFirst?_eq_some_iff.mp h).1
    have hplain : ∀ t, isQualified t = false ↔ cutLast? 0 t = none := fun t => by
      rw [cutLast?_eq_none_iff, isQualified, Option.isSome_eq_false_iff, Option.isNone_iff_eq_none]
    rw [cutLast?_eq, h, Option.map_some]
    constructor
    · intro hcut
      cases hl : cutLast? 0 rest with
      | none =>
        rw [hl] at hcut
        cases hcut
        exact ⟨hself, (hplain rest).mpr hl, by rw [hcolons]⟩
      | some l =>
        rw [hl] at hcut
        cases hcut
        obtain ⟨hsep, hlast, heven⟩ := ih.mp hl
        exact ⟨separates_behind h hsep, hlast, (lastColons_behind hcolons l.1).trans heven⟩
    · rintro ⟨hsep, hlast, heven⟩
      rcases separates_cases h hsep with ⟨rfl, rfl⟩ | rfl | ⟨l, rfl, hbehind⟩
      · rw [(hplain last).mp hlast]
        rfl
      · rw [lastColons_append, hcolons] at heven
        cases heven
      · rw [ih.mpr ⟨hbehind, hlast, (lastColons_behind hcolons l).symm.trans heven⟩]
        rfl

/-- A name falls into the same components from both ends. They make the name again with separators
between them and have no separator of their own, and there are several just where it is
qualified. -/
theorem components_agree (name : Text) :
    componentsOutward name = componentsInward name ∧
      List.intercalate "::".toList (componentsInward name) = name ∧
      (∀ c ∈ componentsInward name, isQualified c = false) ∧
      split name = (scope? name, last name) ∧
      (isQualified name = true ↔ 1 < (componentsInward name).length) :=
  ⟨componentsOutward_eq name, intercalate_componentsInward name,
    unqualified_of_mem_componentsInward name, split_eq name, isQualified_iff_length name⟩

/-- A bracket that closes none is passed over, one that is not closed hides all separators behind
it, and of three colons the first two separate. -/
example : componentsInward "A)::B<(x::y)>:::C<D::E".toList =
    ["A)".toList, "B<(x::y)>".toList, ":C<D::E".toList] := by decide +kernel

end BindingTypes.QualifiedName
