import BindingTypes.TypeCode
import BindingTypes.Proofs.CType.FlatChase

namespace BindingTypes

/-- A text that ends in the only dot it has begins a longer one where its own text does. -/
theorem Text.startsWith_append {f p : Text} (hf : f.getLast? = some '.') (hp : '.' ∉ p.dropLast)
    (x : Text) : (f ++ x).startsWith p = f.startsWith p := by
  rw [Bool.eq_iff_iff, startsWith_iff, startsWith_iff]
  constructor
  · rintro ⟨r, hr⟩
    rcases List.append_eq_append_iff.mp hr with ⟨w, rfl, -⟩ | ⟨w, rfl, -⟩
    · cases w with
      | nil => exact ⟨[], by simp⟩
      | cons c w =>
        refine absurd ?_ hp
        rw [List.dropLast_append_of_ne_nil (List.cons_ne_nil c w)]
        exact List.mem_append_left _ (List.mem_of_getLast? hf)
    · exact ⟨w, rfl⟩
  · rintro ⟨r, rfl⟩
    exact ⟨r ++ x, by rw [List.append_assoc]⟩

/-- A text begins with one of two texts of the same length at most. -/
theorem Text.startsWith_eq_false {t p q : Text} (h : t.startsWith p = true) (hne : p ≠ q)
    (hlength : p.length = q.length) : t.startsWith q = false := by
  rw [Bool.eq_false_iff]
  intro hq
  obtain ⟨x, hx⟩ := startsWith_iff.mp h
  obtain ⟨y, hy⟩ := startsWith_iff.mp hq
  exact hne (List.append_inj_left (hx.symm.trans hy) hlength)

namespace CType

open Relation

variable {T : Table CType} {r : Resolver} {m n N : Nat} {seen : List CType} {f t u x b : Text}
  {fs gs : List Text} {c : TypeCode}

/-- What the first constructor decides alone. -/
def headCode? (t : CType) : Option TypeCode :=
  if isArray t then some .array
  else if isReference t then some .reference
  else if isMemberPointer t then some .memberPointer
  else if isFunction t then some .function
  else none

/-- No constructor that is looked at stands in front. -/
structure Plain (t : CType) : Prop where
  pointer : isPointer t = false
  qualifier : isQualifier t = false
  head : headCode? t = none

theorem codeFrom_pointer (r : Resolver) (m : Nat) (seen : List CType) (x : CType) :
    codeFrom r m seen ("p.".toList ++ x) =
      (codeFrom r m seen x).map fun c => if c = .char then .string else .pointer := by
  have hp : isPointer ("p.".toList ++ x) = true := Text.startsWith_iff.mpr ⟨x, rfl⟩
  rw [codeFrom, dif_pos hp]
  show (codeFrom r m seen x >>= _) = _
  cases codeFrom r m seen x <;> rfl

/-- Neither a pointer nor a qualifier begins like the constructors that decide. -/
theorem apart_of_headCode? (h : headCode? t = some c) :
    isPointer t = false ∧ isQualifier t = false := by
  have hshape : ∀ p ∈ ["a(", "r.", "m(", "f("].map String.toList,
      p ≠ "p.".toList ∧ p ≠ "q(".toList ∧ p.length = 2 := by decide
  have hother : ∀ p ∈ ["a(", "r.", "m(", "f("].map String.toList, t.startsWith p = true →
      isPointer t = false ∧ isQualifier t = false := by
    intro p hp hstarts
    obtain ⟨hne, hne', hlength⟩ := hshape p hp
    exact ⟨Text.startsWith_eq_false hstarts hne hlength,
      Text.startsWith_eq_false hstarts hne' hlength⟩
  unfold headCode? at h
  split_ifs at h with ha hr hm hf
  · exact hother _ (by decide) ha
  · exact hother _ (by decide) hr
  · exact hother _ (by decide) hm
  · exact hother _ (by decide) hf

theorem codeFrom_head (h : headCode? t = some c) : codeFrom r m seen t = .ok c := by
  obtain ⟨hp, hq⟩ := apart_of_headCode? h
  unfold headCode? at h
  rw [codeFrom, dif_neg (by simp [hp])]
  split_ifs at h ⊢ with ha hr hm hq' hf
  all_goals first | exact congrArg Except.ok (Option.some.inj h) | simp_all

theorem headCode?_eq_none_iff : headCode? t = none ↔ isArray t = false ∧ isReference t = false ∧
    isMemberPointer t = false ∧ isFunction t = false := by
  unfold headCode?
  cases isArray t <;> cases isReference t <;> cases isMemberPointer t <;> cases isFunction t <;>
    simp

theorem codeFrom_qualifier (hq : isQualifier t = true) (hn : next t = .ok (f, x)) :
    codeFrom r m seen t = if x = [] then .ok .error else codeFrom r m seen x := by
  have hother : ∀ {p : Text}, p ≠ "q(".toList → p.length = 2 → t.startsWith p = false :=
    fun hne hl => Text.startsWith_eq_false hq hne.symm hl.symm
  have hp : isPointer t = false := hother (by decide) rfl
  have ha : isArray t = false := hother (by decide) rfl
  have hr : isReference t = false := hother (by decide) rfl
  have hm : isMemberPointer t = false := hother (by decide) rfl
  rw [codeFrom, dif_neg (by simp [hp]), if_neg (by simp [ha]), if_neg (by simp [hr]),
    if_neg (by simp [hm]), dif_pos hq]
  split
  · rename_i hf
    rw [hn] at hf
    cases hf
  · rename_i e hf
    rw [hn] at hf
    cases hf
    rfl

/-- The code of a type that no constructor decides: that of a primitive name, or of the next
expansion. -/
def nameCode (r : Resolver) (m : Nat) (seen : List CType) (t : CType) : Except Fault TypeCode :=
  match TypeCode.primitive? t with
  | some c => .ok c
  | none =>
    if seen.contains t then .ok .user
    else
      match r.expand? t with
      | .error f => .error f
      | .ok none => .ok .user
      | .ok (some expanded) =>
        match m with
        | 0 => .error .exhausted
        | m + 1 => codeFrom r m (t :: seen) expanded

theorem codeFrom_plain (h : Plain t) : codeFrom r m seen t = nameCode r m seen t := by
  obtain ⟨ha, hr, hm, hf⟩ := headCode?_eq_none_iff.mp h.head
  rw [codeFrom, dif_neg (by simp [h.pointer]), if_neg (by simp [ha]), if_neg (by simp [hr]),
    if_neg (by simp [hm]), dif_neg (by simp [h.qualifier]), if_neg (by simp [hf])]
  rfl

theorem nameCode_primitive (hprim : TypeCode.primitive? t = some c) :
    nameCode r m seen t = .ok c := by
  unfold nameCode
  rw [hprim]

theorem nameCode_unknown (hprim : TypeCode.primitive? t = none) (h : r.expand? t = .ok none) :
    nameCode r m seen t = .ok .user := by
  unfold nameCode
  rw [hprim, h]
  exact ite_self _

theorem nameCode_expanded (hprim : TypeCode.primitive? t = none) (hnew : t ∉ seen)
    (h : r.expand? t = .ok (some u)) :
    nameCode r (m + 1) seen t = codeFrom r m (t :: seen) u := by
  unfold nameCode
  rw [hprim, h]
  exact if_neg (by simpa using hnew)

section Element

variable (hf : Dotted f)
include hf

theorem startsWith_element {p : Text} (hp : '.' ∉ p.dropLast) :
    (f ++ x).startsWith p = f.startsWith p :=
  Text.startsWith_append hf.getLast? hp x

theorem isPointer_element : isPointer (f ++ x) = isPointer f :=
  startsWith_element hf (by decide)

theorem isQualifier_element : isQualifier (f ++ x) = isQualifier f :=
  startsWith_element hf (by decide)

theorem headCode?_element : headCode? (f ++ x) = headCode? f := by
  have ha : isArray (f ++ x) = isArray f := startsWith_element hf (by decide)
  have hr : isReference (f ++ x) = isReference f := startsWith_element hf (by decide)
  have hm : isMemberPointer (f ++ x) = isMemberPointer f := startsWith_element hf (by decide)
  have hfun : isFunction (f ++ x) = isFunction f := startsWith_element hf (by decide)
  unfold headCode?
  rw [ha, hr, hm, hfun]

theorem eq_of_isPointer (hp : isPointer f = true) : f = "p.".toList := by
  obtain ⟨y, rfl⟩ := Text.startsWith_iff.mp hp
  have hcut := hf.cut []
  have hpointer : Dotted "p.".toList := ⟨['p'], rfl, rfl⟩
  rw [List.append_nil, hpointer.cut y] at hcut
  exact (Prod.mk.inj (Except.ok.inj hcut)).1.symm

/-- No primitive name has an element in front of its base. -/
theorem primitive?_element : TypeCode.primitive? (f ++ x) = if isEnum f then some .int else none := by
  have hnames : ∀ p ∈ TypeCode.primitives,
      cutElement .zero p.1.toList = .ok (p.1.toList, []) ∧ p.1.toList.getLast? ≠ some '.' := by
    decide
  have hfind : TypeCode.primitives.find? (fun p => decide (p.1.toList = f ++ x)) = none := by
    refine List.find?_eq_none.mpr fun p hp heq => ?_
    obtain ⟨hcut, hlast⟩ := hnames p hp
    rw [of_decide_eq_true heq, hf.cut x] at hcut
    obtain ⟨hf', -⟩ := Prod.mk.inj (Except.ok.inj hcut)
    rw [of_decide_eq_true heq, ← hf'] at hlast
    exact hlast hf.getLast?
  have henum : isEnum (f ++ x) = isEnum f := startsWith_element hf (by decide)
  rw [TypeCode.primitive?, hfind, henum]

/-- What the first of several elements says of a type: it is a pointer, it decides, it is passed
over, or the whole type is looked up. -/
theorem element_cases :
    f = "p.".toList ∨
    (∃ c, ∀ r m seen x, codeFrom r m seen (f ++ x) = .ok c) ∨
    (∀ r m seen x, x ≠ [] → codeFrom r m seen (f ++ x) = codeFrom r m seen x) ∨
    (∀ x, Plain (f ++ x) ∧ TypeCode.primitive? (f ++ x) = none) := by
  by_cases hp : isPointer f = true
  · exact Or.inl (eq_of_isPointer hf hp)
  by_cases hq : isQualifier f = true
  · refine Or.inr (Or.inr (Or.inl fun r m seen x hx => ?_))
    rw [codeFrom_qualifier ((isQualifier_element hf).trans hq) (next_eq_ok_iff.mpr (hf.cut x)),
      if_neg hx]
  cases hh : headCode? f with
  | some c =>
    exact Or.inr (Or.inl ⟨c, fun r m seen x => codeFrom_head ((headCode?_element hf).trans hh)⟩)
  | none =>
    have hplain : ∀ x, Plain (f ++ x) := fun x =>
      ⟨by rw [isPointer_element hf, Bool.eq_false_iff.mpr hp],
        by rw [isQualifier_element hf, Bool.eq_false_iff.mpr hq],
        (headCode?_element hf).trans hh⟩
    by_cases he : isEnum f = true
    · refine Or.inr (Or.inl ⟨.int, fun r m seen x => ?_⟩)
      rw [codeFrom_plain (hplain x), nameCode_primitive]
      rw [primitive?_element hf, if_pos he]
    · refine Or.inr (Or.inr (Or.inr fun x => ⟨hplain x, ?_⟩))
      rw [primitive?_element hf, if_neg he]

end Element

/-- Every key is an identifier that names no primitive type, and stands for a well-formed type. -/
structure IsNameTable (T : Table CType) : Prop where
  flat : IsFlatTable T
  key : ∀ {k u}, T.get? k = some u →
    IsIdentifier k ∧ k ∉ TypeCode.primitives.map fun p => p.1.toList

/-- No typedef leads back to itself. -/
def Unlooped (T : Table CType) : Prop := ∀ k, ¬ TransGen (Leads T) k k

/-- Where no typedef leads back to itself, each has a rank above those it leads to. -/
theorem exists_rank (hT : Unlooped T) :
    ∃ rank : Text → Nat, (∀ k b, Leads T k b → rank b < rank k) ∧ ∀ k, rank k ≤ T.size := by
  classical
  refine ⟨fun k => (T.keys.filter fun j => decide (ReflTransGen (Leads T) k j)).length,
    fun k b hkb => ?_, fun k => ?_⟩
  · have hsub : (T.keys.filter fun j => decide (ReflTransGen (Leads T) b j)).Sublist
        (T.keys.filter fun j => decide (ReflTransGen (Leads T) k j)) := by
      refine List.monotone_filter_right _ fun j hj => ?_
      exact decide_eq_true (.head hkb (of_decide_eq_true hj))
    refine lt_of_le_of_ne hsub.length_le fun heq => ?_
    obtain ⟨u, hget, -⟩ := id hkb
    have hk : k ∈ T.keys.filter fun j => decide (ReflTransGen (Leads T) k j) :=
      List.mem_filter.mpr ⟨Table.mem_keys_iff.mpr (by rw [hget]; rfl), decide_eq_true .refl⟩
    rw [← hsub.eq_of_length heq] at hk
    have hback : ReflTransGen (Leads T) b k := of_decide_eq_true (List.mem_filter.mp hk).2
    exact hT k (.head' hkb hback)
  · have hlength := List.length_filter_le (fun j => decide (ReflTransGen (Leads T) k j)) T.keys
    rwa [Table.keys, List.length_map] at hlength

theorem expand?_of_split {front : CType} (h : split t = .ok (front, b)) :
    (Resolver.flat T n).expand? t = .ok ((T.get? b).map (front ++ ·)) := by
  show Resolver.flatExpand? T t = _
  rw [Resolver.flatExpand?, h]
  rfl

theorem base_behind (hn : next t = .ok (f, x)) (ht : t ≠ []) (hx : x ≠ []) : base t = base x := by
  rw [base, base, split, split, elements_of_next hn ht]
  cases hes : elements x with
  | error e => rfl
  | ok es =>
    have hne : es ≠ [] := by
      rintro rfl
      exact hx (flatten_of_elements hes).symm
    show Except.ok (lastOf ([f] ++ es)) = Except.ok (lastOf es)
    rw [lastOf_append _ hne]

/-- The code of a type when `N` expansions or more can be made, whatever was expanded on the way to
it. -/
def Coded (T : Table CType) (n N : Nat) (t : CType) (c : TypeCode) : Prop :=
  ∀ m seen, N ≤ m → (∀ s ∈ seen, ∃ a b, base s = .ok a ∧ base t = .ok b ∧ TransGen (Leads T) a b) →
    codeFrom (Resolver.flat T n) m seen t = .ok c

namespace Coded

theorem mono {M : Nat} (h : Coded T n N t c) (hN : N ≤ M) : Coded T n M t c :=
  fun m seen hm hseen => h m seen (Nat.le_trans hN hm) hseen

theorem alone (h : Coded T n N t c) (hN : N ≤ n) : code (Resolver.flat T n) t = .ok c :=
  h n [] hN fun _ hs => absurd hs List.not_mem_nil

theorem behind {c' : TypeCode} (hf : Dotted f) (hx : x ≠ []) (h : Coded T n N x c)
    (hcode : ∀ m seen, codeFrom (Resolver.flat T n) m seen x = .ok c →
      codeFrom (Resolver.flat T n) m seen (f ++ x) = .ok c') : Coded T n N (f ++ x) c' := by
  intro m seen hm hseen
  rw [base_behind (next_eq_ok_iff.mpr (hf.cut x)) (by simp [hx]) hx] at hseen
  exact hcode m seen (h m seen hm hseen)

/-- A name that is looked up is classified as what it stands for. -/
theorem of_plain (hT : Unlooped T) (hplain : Plain t) (hprim : TypeCode.primitive? t = none)
    (ht : Composed t fs b) (hget : T.get? b = some u) (hu : Composed u gs x)
    (h : Coded T n N (fs.flatten ++ u) c) : Coded T n (N + 1) t c := by
  intro m seen hm hseen
  obtain ⟨m, rfl⟩ : ∃ k, m = k + 1 := ⟨m - 1, by omega⟩
  have hleads : Leads T b x := ⟨u, hget, hu.base⟩
  have hbase : base (fs.flatten ++ u) = .ok x := (ht.under hu).base
  have hnew : t ∉ seen := by
    intro hmem
    obtain ⟨a, b', ha, hb', hloop⟩ := hseen t hmem
    cases ha.symm.trans hb'
    exact hT a hloop
  have hexpand : (Resolver.flat T n).expand? t = .ok (some (fs.flatten ++ u)) := by
    rw [expand?_of_split ht.split, hget]
    rfl
  rw [codeFrom_plain hplain, nameCode_expanded hprim hnew hexpand]
  refine h m (t :: seen) (by omega) (List.forall_mem_cons.mpr ⟨⟨b, x, ht.base, hbase,
    .single hleads⟩, fun s hs => ?_⟩)
  obtain ⟨a, b', ha, hb', hway⟩ := hseen s hs
  cases ht.base.symm.trans hb'
  exact ⟨a, x, ha, hbase, hway.tail hleads⟩

end Coded

theorem unlooped_of_rank (rank : Text → Nat)
    (h : ∀ e ∈ T.entries, ∃ b, base e.2 = .ok b ∧ rank b < rank e.1) : Unlooped T := by
  have hlt : ∀ {k j}, TransGen (Leads T) k j → rank j < rank k := by
    intro k j hkj
    induction hkj with
    | single hl =>
      obtain ⟨u, hget, hb⟩ := hl
      obtain ⟨b, hb', hrank⟩ := h _ (Table.mem_entries_of_get? hget)
      cases hb.symm.trans hb'
      exact hrank
    | tail _ hl ih =>
      obtain ⟨u, hget, hb⟩ := hl
      obtain ⟨b, hb', hrank⟩ := h _ (Table.mem_entries_of_get? hget)
      cases hb.symm.trans hb'
      exact Nat.lt_trans hrank ih
  exact fun k hk => Nat.lt_irrefl _ (hlt hk)

section Named

variable (hT : IsNameTable T)
include hT

theorem unbracketed_key (hget : T.get? b = some u) : Unbracketed b :=
  (hT.key hget).1.isWord.unbracketed

theorem elements_key (hget : T.get? b = some u) : elements b = .ok [b] :=
  elements_unbracketed (unbracketed_key hT hget) (hT.key hget).1.1

theorem plain_key (hget : T.get? b = some u) : Plain b ∧ TypeCode.primitive? b = none := by
  have hb := isBase_of_unbracketed (unbracketed_key hT hget)
  obtain ⟨hid, hname⟩ := hT.key hget
  refine ⟨⟨hb.not_pointer, hb.not_qualifier, headCode?_eq_none_iff.mpr ⟨hb.not_array,
    hb.not_reference, hb.not_memberPointer, hb.plain 'f' (by decide)⟩⟩, ?_⟩
  have hfind : TypeCode.primitives.find? (fun p => decide (p.1.toList = b)) = none :=
    List.find?_eq_none.mpr fun p hp heq =>
      hname (List.mem_map.mpr ⟨p, hp, of_decide_eq_true heq⟩)
  have henum : isEnum b = false := by
    rw [isEnum, Text.startsWith, hid.isWord.2.2]
    rfl
  rw [TypeCode.primitive?, hfind, henum]
  rfl

theorem get?_nil : T.get? [] = none := by
  cases hget : T.get? [] with
  | none => rfl
  | some u => exact absurd rfl (hT.key hget).1.1

theorem unnamed_behind (hn : next t = .ok (f, x)) (ht : t ≠ []) (hb : base t = .ok b)
    (hget : T.get? b = none) : ∃ b', base x = .ok b' ∧ T.get? b' = none := by
  by_cases hx : x = []
  · rw [hx]
    exact ⟨[], by rw [base, split, elements_nil]; rfl, get?_nil hT⟩
  · exact ⟨b, by rw [← base_behind hn ht hx, hb], hget⟩

/-- A type whose base is no typedef has one code. -/
theorem exists_code_of_unnamed (ht : Balanced t) (hb : base t = .ok b) (hget : T.get? b = none) :
    ∃ c, ∀ m seen, codeFrom (Resolver.flat T n) m seen t = .ok c := by
  induction hl : t.length using Nat.strongRecOn generalizing t b with
  | ind l ih =>
    have hgo : ∀ {f x}, next t = .ok (f, x) → t ≠ [] → Balanced x →
        ∃ c, ∀ m seen, codeFrom (Resolver.flat T n) m seen x = .ok c := by
      intro f x hn hne hx
      obtain ⟨b', hb', hget'⟩ := unnamed_behind hT hn hne hb hget
      exact ih _ (hl ▸ next_rest_lt hn hne) hx hb' hget' rfl
    by_cases hp : isPointer t = true
    · obtain ⟨x, rfl⟩ := Text.startsWith_iff.mp hp
      have hpointer : Dotted "p.".toList := ⟨['p'], rfl, rfl⟩
      obtain ⟨c, hc⟩ := hgo (next_eq_ok_iff.mpr (hpointer.cut x)) (by simp)
        (ht.right hpointer.balanced)
      exact ⟨_, fun m seen => by rw [codeFrom_pointer, hc]; rfl⟩
    by_cases hq : isQualifier t = true
    · have hne : t ≠ [] := by
        rintro rfl
        cases hq
      obtain ⟨⟨f, x⟩, hcut, hx⟩ := cutElement_of_parensAfter (d := .zero) ht
      have hn := next_eq_ok_iff.mpr hcut
      obtain ⟨c, hc⟩ := hgo hn hne hx
      refine ⟨if x = [] then .error else c, fun m seen => ?_⟩
      rw [codeFrom_qualifier hq hn, hc]
      split <;> rfl
    cases hh : headCode? t with
    | some c => exact ⟨c, fun m seen => codeFrom_head hh⟩
    | none =>
      have hplain : Plain t := ⟨Bool.eq_false_iff.mpr hp, Bool.eq_false_iff.mpr hq, hh⟩
      cases hprim : TypeCode.primitive? t with
      | some c =>
        exact ⟨c, fun m seen => (codeFrom_plain hplain).trans (nameCode_primitive hprim)⟩
      | none =>
        refine ⟨.user, fun m seen => ?_⟩
        obtain ⟨⟨front, b⟩, hsplit, rfl⟩ := map_eq_ok hb
        have hexpand : (Resolver.flat T n).expand? t = .ok none := by
          rw [expand?_of_split hsplit, hget]
          rfl
        exact (codeFrom_plain hplain).trans (nameCode_unknown hprim hexpand)

variable (hacyclic : Unlooped T)
include hacyclic

/-- What is in front of a typedef does not change when the typedef is expanded. -/
theorem exists_coded_named (hget : T.get? b = some u) (hu : Composed u gs x)
    (hrest : ∀ fs : List Text, (∀ f ∈ fs, Dotted f) → ∃ c, Coded T n N (fs.flatten ++ u) c)
    (hfs : ∀ f ∈ fs, Dotted f) :
    ∃ c, Coded T n N (fs.flatten ++ u) c ∧ Coded T n (N + 1) (fs.flatten ++ b) c := by
  have hb : Composed b [] b := ⟨rfl, nofun, elements_key hT hget, (hT.key hget).1.1⟩
  induction fs with
  | nil =>
    obtain ⟨hplain, hprim⟩ := plain_key hT hget
    obtain ⟨c, hc⟩ := hrest [] nofun
    exact ⟨c, hc, hc.of_plain hacyclic hplain hprim hb hget hu⟩
  | cons f fs ih =>
    obtain ⟨hf, hfs'⟩ := List.forall_mem_cons.mp hfs
    obtain ⟨c, hcu, hcb⟩ := ih hfs'
    have hune : fs.flatten ++ u ≠ [] := by simp [hu.whole_ne_nil]
    have hbne : fs.flatten ++ b ≠ [] := by simp [hb.ne_nil]
    rw [List.flatten_cons, List.append_assoc, List.append_assoc]
    rcases element_cases hf with rfl | ⟨c', hconst⟩ | hpassed | hlooked
    · have hpointer : ∀ x m seen, codeFrom (Resolver.flat T n) m seen x = .ok c →
          codeFrom (Resolver.flat T n) m seen ("p.".toList ++ x) =
            .ok (if c = .char then .string else .pointer) := by
        intro x m seen hx
        rw [codeFrom_pointer, hx]
        rfl
      exact ⟨_, hcu.behind hf hune (hpointer _), hcb.behind hf hbne (hpointer _)⟩
    · exact ⟨c', fun m seen _ _ => hconst _ m seen _, fun m seen _ _ => hconst _ m seen _⟩
    · refine ⟨c, hcu.behind hf hune fun m seen hx => ?_, hcb.behind hf hbne fun m seen hx => ?_⟩
      · rw [hpassed _ m seen _ hune, hx]
      · rw [hpassed _ m seen _ hbne, hx]
    · obtain ⟨hplain, hprim⟩ := hlooked (fs.flatten ++ b)
      obtain ⟨c', hc'⟩ := hrest (f :: fs) hfs
      have ht : Composed (f ++ (fs.flatten ++ b)) (f :: fs) b :=
        ⟨by simp, hfs, hb.single, hb.ne_nil⟩
      have hnamed := hc'.of_plain hacyclic hplain hprim ht hget hu
      rw [List.flatten_cons, List.append_assoc] at hc'
      exact ⟨c', hc', hnamed⟩

variable {rank : Text → Nat} (hrank : ∀ k b, Leads T k b → rank b < rank k)
include hrank

theorem exists_coded (ht : Composed t fs b) : ∃ c, Coded T n (rank b) t c := by
  induction hk : rank b using Nat.strongRecOn generalizing t fs b with
  | ind k ih =>
    cases hget : T.get? b with
    | none =>
      obtain ⟨c, hc⟩ := exists_code_of_unnamed hT ht.balanced ht.base hget
      exact ⟨c, fun m seen _ _ => hc m seen⟩
    | some u =>
      obtain ⟨hbalanced, hne⟩ := hT.flat hget
      obtain ⟨gs, x, hu⟩ := composed_of_balanced hbalanced hne
      have hlt : rank x < rank b := hrank b x ⟨u, hget, hu.base⟩
      obtain ⟨c, -, hc⟩ := exists_coded_named hT hacyclic hget hu (N := rank x)
        (fun fs hfs => ih _ (hk ▸ hlt) (hu.behind hfs) rfl)
        ht.dotted
      rw [← ht.eq] at hc
      exact ⟨c, hc.mono (by omega)⟩

theorem exists_code (hn : ∀ k, rank k ≤ n) (ht : Balanced t) :
    ∃ c, code (Resolver.flat T n) t = .ok c := by
  by_cases hne : t = []
  · obtain ⟨c, hc⟩ := exists_code_of_unnamed (n := n) hT ht
      (by rw [hne, base, split, elements_nil]; rfl) (get?_nil hT)
    exact ⟨c, hc n []⟩
  · obtain ⟨fs, b, hcomposed⟩ := composed_of_balanced ht hne
    obtain ⟨c, hc⟩ := exists_coded (n := n) hT hacyclic hrank hcomposed
    exact ⟨c, hc.alone (hn b)⟩

/-- An expansion leaves the code as it is. -/
theorem code_expanded (hn : ∀ k, rank k ≤ n) (ht : Balanced t)
    (h : Resolver.flatExpand? T t = .ok (some u)) :
    Balanced u ∧ ∃ c, code (Resolver.flat T n) t = .ok c ∧ code (Resolver.flat T n) u = .ok c := by
  obtain ⟨⟨front, b⟩, hsplit, h⟩ := bind_eq_ok h
  obtain ⟨target, hget, rfl⟩ := Option.map_eq_some_iff.mp (Except.ok.inj h)
  have hne : t ≠ [] := by
    rintro rfl
    rw [split, elements_nil] at hsplit
    obtain ⟨-, rfl⟩ := Prod.mk.inj (Except.ok.inj hsplit)
    exact (hT.key hget).1.1 rfl
  obtain ⟨fs, b, hc⟩ := composed_of_balanced ht hne
  rw [hc.split] at hsplit
  obtain ⟨rfl, rfl⟩ := Prod.mk.inj (Except.ok.inj hsplit)
  obtain ⟨hbalanced, hnonempty⟩ := hT.flat hget
  obtain ⟨gs, x, hu⟩ := composed_of_balanced hbalanced hnonempty
  obtain ⟨c, hafter, hbefore⟩ := exists_coded_named hT hacyclic hget hu (n := n) (N := rank x)
    (fun fs hfs => exists_coded hT hacyclic hrank
      (hu.behind hfs)) hc.dotted
  have hlt : rank x < rank b := hrank b x ⟨target, hget, hu.base⟩
  have hroom := hn b
  rw [← hc.eq] at hbefore
  exact ⟨(hc.under hu).balanced, c, hbefore.alone (by omega), hafter.alone (by omega)⟩

end Named

/-- Where no typedef leads back to itself, a type has the code of what it resolves to. -/
theorem code_resolved (T : Table CType) (n : Nat) (hT : IsNameTable T) (hacyclic : Unlooped T)
    (hn : T.size ≤ n) (t : CType) (ht : Balanced t) :
    ∃ u c, (Resolver.flat T n).resolve t = .ok u ∧ code (Resolver.flat T n) t = .ok c ∧
      code (Resolver.flat T n) u = .ok c := by
  obtain ⟨rank, hrank, hbound⟩ := exists_rank hacyclic
  obtain ⟨u, hu⟩ := exists_resolved hT.flat hn ht
  have hroom : ∀ k, rank k ≤ n := fun k => Nat.le_trans (hbound k) hn
  obtain ⟨c, hc⟩ := exists_code hT hacyclic hrank hroom ht
  have hkept : Balanced u ∧ code (Resolver.flat T n) u = .ok c := by
    refine chase_keeps (P := fun u => Balanced u ∧ code (Resolver.flat T n) u = .ok c)
      (fun t next hp hexpand => ?_) ⟨ht, hc⟩ hu
    obtain ⟨hbalanced, c', hc', hnext⟩ := code_expanded hT hacyclic hrank hroom hp.1 hexpand
    cases hp.2.symm.trans hc'
    exact ⟨hbalanced, hnext⟩
  exact ⟨u, c, hu, hc, hkept.2⟩

/-- A name for characters, and one for pointers to constant ones. -/
def characterNames : Table CType :=
  .ofList [("byte".toList, "char".toList), ("text".toList, "p.q(const).byte".toList)]

theorem code_of_text : ∃ u, (Resolver.flat characterNames 2).resolve "text".toList = .ok u ∧
    u = "p.q(const).char".toList ∧
    code (Resolver.flat characterNames 2) "text".toList = .ok .string ∧
    code (Resolver.flat characterNames 2) u = .ok .string := by
  have hall : ∀ e ∈ characterNames.entries, (Balanced e.2 ∧ e.2 ≠ []) ∧ IsIdentifier e.1 ∧
      e.1 ∉ TypeCode.primitives.map fun p => p.1.toList := by decide +kernel
  have hT : IsNameTable characterNames :=
    ⟨fun hget => (hall _ (Table.mem_entries_of_get? hget)).1,
      fun hget => (hall _ (Table.mem_entries_of_get? hget)).2⟩
  have hentries : characterNames.entries =
      [("byte".toList, "char".toList), ("text".toList, "p.q(const).byte".toList)] := by
    decide +kernel
  have hacyclic : Unlooped characterNames := by
    refine unlooped_of_rank (fun k => if k = "text".toList then 2 else if k = "byte".toList then 1
      else 0) ?_
    rw [hentries]
    refine List.forall_mem_cons.mpr ⟨?_, List.forall_mem_singleton.mpr ?_⟩
    · exact ⟨"char".toList, by decide +kernel, by decide⟩
    · exact ⟨"byte".toList, by decide +kernel, by decide⟩
  obtain ⟨u, c, hu, ht, hcode⟩ :=
    code_resolved characterNames 2 hT hacyclic (by decide) "text".toList (by decide)
  have hresolved : (Resolver.flat characterNames 2).resolve "text".toList =
      .ok "p.q(const).char".toList := by decide +kernel
  cases hu.symm.trans hresolved
  have hchar : Plain "char".toList := ⟨rfl, rfl, rfl⟩
  have hstring : code (Resolver.flat characterNames 2) "p.q(const).char".toList =
      .ok .string := by
    show codeFrom (Resolver.flat characterNames 2) 2 [] ("p.".toList ++ "q(const).char".toList) = _
    rw [codeFrom_pointer, codeFrom_qualifier (f := "q(const).".toList) (x := "char".toList)
      (by decide) (by decide), if_neg (by decide), codeFrom_plain hchar,
      nameCode_primitive (c := .char) rfl]
    rfl
  cases hcode.symm.trans hstring
  exact ⟨_, hu, rfl, ht, hcode⟩

end CType

end BindingTypes
