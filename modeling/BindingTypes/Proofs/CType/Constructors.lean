import BindingTypes.Proofs.CType.Marks

namespace BindingTypes.CType

/-- Behind `k` open parentheses, no comma of the text stands outside them. -/
def CommasInside (k : Nat) (t : Text) : Prop :=
  ∀ front rest, t = front ++ ',' :: rest → parensAfter k front ≠ some 0

/-- A pointer, a reference, or a letter with one group in parentheses and the dot. -/
inductive OneGroup : Text → Prop
  | pointer : OneGroup "p.".toList
  | reference : OneGroup "r.".toList
  | group (letter : Char) {x : Text} (hx : Balanced x) : OneGroup (written letter x)

/-- The texts of a constructor can be told apart in its element: their parentheses close, and the
listed types have no comma of their own. No type and one empty type are written alike; the list is
read as empty. -/
def Constructor.IsReadable : Constructor → Prop
  | .pointer | .reference => True
  | .array text | .qualifier text | .memberPointer text => Balanced text
  | .function ps => (∀ p ∈ ps, Balanced p ∧ CommasInside 0 p) ∧ ps ≠ [[]]

variable {c : Constructor} {d : Char} {k n : Nat} {t e s rest : Text}

section Commas

theorem commasInside_nil (k : Nat) : CommasInside k [] := by
  intro front rest h
  simp at h

/-- A character is a comma outside parentheses, or the rest decides. -/
theorem commasInside_cons (h : parensStep k d = some n) :
    CommasInside k (d :: t) ↔ ¬ (d = ',' ∧ k = 0) ∧ CommasInside n t := by
  constructor
  · intro hall
    refine ⟨?_, fun front rest ht hfront => ?_⟩
    · rintro ⟨rfl, rfl⟩
      exact hall [] t rfl rfl
    · refine hall (d :: front) rest (by rw [ht]; rfl) ?_
      rw [parensAfter_cons, h]
      exact hfront
  · rintro ⟨hhead, htail⟩ front rest ht
    cases front with
    | nil =>
      obtain ⟨rfl, -⟩ := List.cons.inj ht
      exact fun hk => hhead ⟨rfl, Option.some.inj hk⟩
    | cons d' front =>
      obtain ⟨rfl, hrest⟩ := List.cons.inj ht
      rw [parensAfter_cons, h]
      exact htail front rest hrest

/-- Where every comma stands inside parentheses, no piece ends before the text does. -/
theorem commaPieces_of_commasInside (h : parensAfter k t = some 0) (hc : CommasInside k t)
    (u : Text) : commaPieces k (t ++ u) = (t ++ (commaPieces 0 u).1, (commaPieces 0 u).2) := by
  induction t generalizing k with
  | nil =>
    cases h
    rfl
  | cons d t ih =>
    rw [parensAfter_cons] at h
    obtain ⟨n, hn, h⟩ := Option.bind_eq_some_iff.mp h
    obtain ⟨hd, hc⟩ := (commasInside_cons hn).mp hc
    rw [List.cons_append, commaPieces, if_neg hd, depth_of_parensStep hn, ih h hc]
    rfl

theorem listable_iff : Listable t ↔ Balanced t ∧ CommasInside 0 t := by
  constructor
  · refine fun h => ⟨h.balanced, fun front rest ht hfront => ?_⟩
    have hpieces := h.pieces []
    rw [List.append_nil, ht, commaPieces_append hfront] at hpieces
    have hothers := congrArg Prod.snd hpieces
    simp [commaPieces] at hothers
  · rintro ⟨hb, hc⟩
    exact ⟨hb, commaPieces_of_commasInside hb hc⟩

theorem commasInside_commaPieces (h : parensAfter k t = some 0) :
    CommasInside k (commaPieces k t).1 ∧ ∀ p ∈ (commaPieces k t).2, CommasInside 0 p := by
  induction t generalizing k with
  | nil => exact ⟨commasInside_nil k, nofun⟩
  | cons d t ih =>
    rw [parensAfter_cons] at h
    obtain ⟨n, hn, h⟩ := Option.bind_eq_some_iff.mp h
    obtain ⟨hfirst, hothers⟩ := ih h
    rw [commaPieces]
    by_cases hd : d = ',' ∧ k = 0
    · obtain ⟨rfl, rfl⟩ := hd
      cases hn
      rw [if_pos ⟨rfl, rfl⟩]
      exact ⟨commasInside_nil 0, List.forall_mem_cons.mpr ⟨hfirst, hothers⟩⟩
    · rw [if_neg hd, depth_of_parensStep hn]
      exact ⟨(commasInside_cons hn).mpr ⟨hd, hfirst⟩, hothers⟩

theorem commasInside_listed (h : Balanced t) : ∀ p ∈ listed t, CommasInside 0 p := by
  unfold listed
  split
  · exact nofun
  · exact List.forall_mem_cons.mpr (commasInside_commaPieces h)

theorem commaJoin_commaPieces (k : Nat) (t : Text) :
    Text.commaJoin ((commaPieces k t).1 :: (commaPieces k t).2) = t := by
  have hcons : ∀ (d : Char) (p : Text) (ps : List Text),
      Text.commaJoin ((d :: p) :: ps) = d :: Text.commaJoin (p :: ps) := by
    intro d p ps
    cases ps <;> simp [Text.commaJoin, List.intercalate_cons_cons]
  induction t generalizing k with
  | nil => rfl
  | cons d t ih =>
    rw [commaPieces]
    split
    · rename_i hd
      have hrest := ih 0
      rw [Text.commaJoin] at hrest ⊢
      rw [List.intercalate_cons_cons, hrest, hd.1]
      rfl
    · rw [hcons, ih]

/-- Joining is the inverse of listing. -/
theorem commaJoin_listed (t : Text) : Text.commaJoin (listed t) = t := by
  unfold listed
  split
  · rename_i ht
    rw [ht]
    rfl
  · exact commaJoin_commaPieces 0 t

end Commas

namespace Constructor

theorem IsReadable.dotted (h : c.IsReadable) : Dotted c.text := by
  cases c with
  | pointer => exact ⟨['p'], rfl, by decide⟩
  | reference => exact ⟨['r'], rfl, by decide⟩
  | array x => exact dotted_written (by decide) h
  | function ps => exact dotted_written (by decide) (balanced_commaJoin fun p hp => (h.1 p hp).1)
  | qualifier x => exact dotted_written (by decide) h
  | memberPointer x => exact dotted_written (by decide) h

theorem IsReadable.oneGroup (h : c.IsReadable) : OneGroup c.text := by
  cases c with
  | pointer => exact .pointer
  | reference => exact .reference
  | array x => exact .group 'a' h
  | function ps => exact .group 'f' (balanced_commaJoin fun p hp => (h.1 p hp).1)
  | qualifier x => exact .group 'q' h
  | memberPointer x => exact .group 'm' h

theorem ofElement?_text (h : c.IsReadable) : ofElement? c.text = .ok (some c) := by
  cases c with
  | pointer => rfl
  | reference => rfl
  | array x =>
    rw [Constructor.text, ofElement?, kind_written]
    show (argument (written 'a' x)).map _ = _
    rw [argument_written (by decide) h]
    rfl
  | function ps =>
    obtain ⟨hps, hne⟩ := h
    have hlisted := listed_commaJoin_of_ne (fun p hp => listable_iff.mpr (hps p hp)) hne
    rw [Constructor.text, ofElement?, kind_written]
    show (arguments (written 'f' (Text.commaJoin ps))).map _ = _
    rw [arguments_written (by decide) (balanced_commaJoin fun p hp => (hps p hp).1), hlisted]
    rfl
  | qualifier x =>
    rw [Constructor.text, ofElement?, kind_written]
    show (argument (written 'q' x)).map _ = _
    rw [argument_written (by decide) h]
    rfl
  | memberPointer x =>
    rw [Constructor.text, ofElement?, kind_written]
    show (argument (written 'm' x)).map _ = _
    rw [argument_written (by decide) h]
    rfl

end Constructor

theorem balanced_group {x : Text} (h : group? e = .ok (some x)) : Balanced x := by
  obtain ⟨front, rest, -, hx⟩ := group?_cases h
  exact hx

namespace Constructor

theorem isReadable_listed {x : Text} (hx : Balanced x) : (function (listed x)).IsReadable := by
  refine ⟨fun p hp => ⟨hx.listed p hp, commasInside_listed hx p hp⟩, fun hone => ?_⟩
  have hjoin := commaJoin_listed x
  rw [hone] at hjoin
  have hnil : x = [] := hjoin.symm
  rw [hnil] at hone
  cases hone

/-- Whatever an element is read as can be read. -/
theorem isReadable_of_ofElement? (h : ofElement? e = .ok (some c)) : c.IsReadable := by
  unfold ofElement? at h
  split at h
  · cases h
    trivial
  · cases h
    trivial
  · obtain ⟨x, hx, h⟩ := map_eq_ok h
    cases h
    exact balanced_group (group?_of_argument hx)
  · obtain ⟨ps, hps, h⟩ := map_eq_ok h
    cases h
    obtain ⟨x, hx, rfl⟩ := group?_of_arguments hps
    exact isReadable_listed (balanced_group hx)
  · obtain ⟨x, hx, h⟩ := map_eq_ok h
    cases h
    exact balanced_group (group?_of_argument hx)
  · obtain ⟨x, hx, h⟩ := map_eq_ok h
    cases h
    exact balanced_group (group?_of_argument hx)
  · cases h

/-- The letter of an element with one group is that of a constructor, or the element is a base. -/
theorem written_cases (letter : Char) {x : Text} (hx : Balanced x) :
    Kind.of (written letter x) = .base ∨
      ∃ c : Constructor, c.IsReadable ∧ c.text = written letter x := by
  by_cases ha : 'a' = letter
  · exact Or.inr ⟨.array x, hx, by rw [Constructor.text, ha]⟩
  by_cases hf : 'f' = letter
  · exact Or.inr ⟨.function (listed x), isReadable_listed hx, by
      rw [Constructor.text, commaJoin_listed, hf]⟩
  by_cases hq : 'q' = letter
  · exact Or.inr ⟨.qualifier x, hx, by rw [Constructor.text, hq]⟩
  by_cases hm : 'm' = letter
  · exact Or.inr ⟨.memberPointer x, hx, by rw [Constructor.text, hm]⟩
  · rw [kind_written, if_neg ha, if_neg hf, if_neg hq, if_neg hm]
    exact Or.inl rfl

/-- A constructor is written as the element it was read from, if that holds nothing beside its
group. -/
theorem text_eq_iff_oneGroup (h : ofElement? e = .ok (some c)) : c.text = e ↔ OneGroup e := by
  constructor
  · intro he
    rw [← he]
    exact (isReadable_of_ofElement? h).oneGroup
  · intro he
    cases he with
    | pointer =>
      cases h
      rfl
    | reference =>
      cases h
      rfl
    | group letter hx =>
      rcases written_cases letter hx with hbase | ⟨c', hc', htext⟩
      · rw [ofElement?, hbase] at h
        cases h
      · rw [← htext, ofElement?_text hc'] at h
        cases h
        exact htext

end Constructor

theorem pop?_eq_some_iff :
    pop? s = .ok (some (c, rest)) ↔
      ∃ e, next s = .ok (e, rest) ∧ Constructor.ofElement? e = .ok (some c) := by
  unfold pop?
  constructor
  · intro h
    obtain ⟨⟨e, rest'⟩, hnext, h⟩ := bind_eq_ok h
    obtain ⟨o, ho, h⟩ := bind_eq_ok h
    obtain ⟨c', rfl, hc⟩ := Option.map_eq_some_iff.mp (Except.ok.inj h)
    cases hc
    exact ⟨e, hnext, ho⟩
  · rintro ⟨e, hnext, he⟩
    rw [hnext]
    show (Constructor.ofElement? e >>= _) = _
    rw [he]
    rfl

theorem apply_eq_append (c : Constructor) (t : CType) : apply c t = c.text ++ t := by
  have hlast : c.text.getLast? = some '.' := by
    cases c with
    | pointer => rfl
    | reference => rfl
    | array x => exact getLast?_written 'a' x
    | function ps => exact getLast?_written 'f' (Text.commaJoin ps)
    | qualifier x => exact getLast?_written 'q' x
    | memberPointer x => exact getLast?_written 'm' x
  exact push_of_dot hlast t

/-- A constructor is taken from a type again as it was put in front, just where its texts can be
told apart; and what is taken from a type gives that type when it is put back, just where the
outermost element holds nothing beside its group. -/
theorem pop_inverts_apply :
    (∀ (c : Constructor) (t : CType), pop? (apply c t) = .ok (some (c, t)) ↔ c.IsReadable) ∧
    ∀ (s rest : CType) (c : Constructor), pop? s = .ok (some (c, rest)) →
      (apply c rest = s ↔ ∃ e, first s = .ok e ∧ OneGroup e) := by
  refine ⟨fun c t => ⟨fun h => ?_, fun h => ?_⟩, fun s rest c h => ?_⟩
  · obtain ⟨e, -, he⟩ := pop?_eq_some_iff.mp h
    exact Constructor.isReadable_of_ofElement? he
  · have hnext : next (apply c t) = .ok (c.text, t) := by
      rw [apply_eq_append, next_eq_ok_iff]
      exact h.dotted.cut t
    exact pop?_eq_some_iff.mpr ⟨c.text, hnext, Constructor.ofElement?_text h⟩
  · obtain ⟨e, hnext, he⟩ := pop?_eq_some_iff.mp h
    have hfirst : first s = .ok e := by
      rw [first, hnext]
      rfl
    have hback : apply c rest = s ↔ c.text = e := by
      rw [apply_eq_append, ← next_append hnext]
      exact List.append_left_inj rest
    rw [hback, Constructor.text_eq_iff_oneGroup he]
    refine ⟨fun h => ⟨e, hfirst, h⟩, ?_⟩
    rintro ⟨e', he', hgroup⟩
    cases hfirst.symm.trans he'
    exact hgroup

/-- What stands behind the group is lost. -/
example : pop? "a(4)(2).int".toList = .ok (some (.array "4".toList, "int".toList)) := rfl

theorem listed_parameters_read_back :
    (Constructor.function ["p.f(int,char).void".toList, [], "Pair<(a,b)>".toList]).IsReadable ∧
    pop? (apply (.function ["p.f(int,char).void".toList, [], "Pair<(a,b)>".toList])
        "q(const).T".toList) =
      .ok (some (.function ["p.f(int,char).void".toList, [], "Pair<(a,b)>".toList],
        "q(const).T".toList)) ∧
    pop? "f(p.f(int,char).void,).T".toList =
      .ok (some (.function ["p.f(int,char).void".toList, []], "T".toList)) ∧
    apply (.function ["p.f(int,char).void".toList, []]) "T".toList =
      "f(p.f(int,char).void,).T".toList := by
  have hplain : ∀ {t : Text}, t.all (fun d => d ≠ ',' ∧ d ≠ '(' ∧ d ≠ ')') → Listable t :=
    fun h => .of_plain fun d hd => of_decide_eq_true (List.all_eq_true.mp h d hd)
  have hpointer : Listable "p.f(int,char).void".toList :=
    (hplain (t := "p.".toList) rfl).append
      ((Listable.written (c := 'f') (x := "int,char".toList) (by decide) (by decide)).append
        (hplain (t := "void".toList) rfl))
  have hpair : Listable "Pair<(a,b)>".toList :=
    (hplain (t := "Pair<".toList) rfl).append
      ((Listable.group (x := "a,b".toList) (by decide)).append
        (hplain (t := ">".toList) rfl))
  have hreadable : (Constructor.function
      ["p.f(int,char).void".toList, [], "Pair<(a,b)>".toList]).IsReadable := by
    refine ⟨?_, by decide⟩
    simp only [List.forall_mem_cons]
    exact ⟨listable_iff.mp hpointer, listable_iff.mp .nil, listable_iff.mp hpair, nofun⟩
  have hpop : pop? "f(p.f(int,char).void,).T".toList =
      .ok (some (.function ["p.f(int,char).void".toList, []], "T".toList)) := rfl
  have hfirst : first "f(p.f(int,char).void,).T".toList =
      .ok (written 'f' "p.f(int,char).void,".toList) := rfl
  exact ⟨hreadable, (pop_inverts_apply.1 _ _).mpr hreadable, hpop,
    (pop_inverts_apply.2 _ _ _ hpop).mpr ⟨_, hfirst, .group 'f' (by decide)⟩⟩

end BindingTypes.CType
