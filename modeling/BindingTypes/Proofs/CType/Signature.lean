import BindingTypes.Proofs.CType.LocalForm
import BindingTypes.Proofs.CType.Mentions
import BindingTypes.Proofs.CType.WellFormed
import Mathlib.Data.List.Flatten

namespace BindingTypes.CType

/-- The constructors of the local form: whether a function stands in front, and whether no other
element of the form does. -/
def localConstructors : Bool → Bool → List Constructor → List Constructor
  | _, _, [] => []
  | kept, first, .qualifier _ :: cs => localConstructors kept first cs
  | kept, _, .reference :: cs =>
    (if kept then .reference else .pointer) :: localConstructors kept false cs
  | kept, first, .array d :: cs =>
    (if first && !kept then .pointer else .array d) :: localConstructors kept false cs
  | _, first, .function ps :: cs => .function ps :: localConstructors true first cs
  | kept, _, c :: cs => c :: localConstructors kept false cs

/-- The base of the local form. -/
def localBase (kept : Bool) (b : Text) : Text :=
  if b = "enum ".toList && !kept then "int".toList else b

variable {b : Text} {cs ds : List Constructor} {kept first : Bool} {ps : List CType}

theorem localElements_map (kept first : Bool) (cs : List Constructor) (es : List Text) :
    ∃ first', localElements kept first (cs.map Constructor.text ++ es) =
      (localConstructors kept first cs).map Constructor.text ++
        localElements (kept || cs.any (·.kind = .function)) first' es := by
  induction cs generalizing kept first with
  | nil => exact ⟨first, by simp [localConstructors]⟩
  | cons c cs ih =>
    rw [List.map_cons, List.cons_append, localElements, kind_text]
    cases c with
    | pointer =>
      obtain ⟨first', h⟩ := ih kept false
      exact ⟨first', by simp [Constructor.kind, localConstructors, h]⟩
    | reference =>
      obtain ⟨first', h⟩ := ih kept false
      refine ⟨first', ?_⟩
      cases kept <;> simpa [Constructor.kind, localConstructors, Constructor.text] using h
    | array d =>
      obtain ⟨first', h⟩ := ih kept false
      refine ⟨first', ?_⟩
      cases first <;> cases kept <;>
        simpa [Constructor.kind, localConstructors, Constructor.text] using h
    | function ps =>
      obtain ⟨first', h⟩ := ih true first
      exact ⟨first', by simp [Constructor.kind, localConstructors, h]⟩
    | qualifier w =>
      obtain ⟨first', h⟩ := ih kept first
      exact ⟨first', by simpa [Constructor.kind, localConstructors] using h⟩
    | memberPointer o =>
      obtain ⟨first', h⟩ := ih kept false
      exact ⟨first', by simp [Constructor.kind, localConstructors, h]⟩

/-- The local form of a type, part by part. -/
theorem flatten_localElements (hb : IsBase b) (cs : List Constructor) :
    (localElements false true (cs.map Constructor.text ++ if b = [] then [] else [b])).flatten =
      chain (localConstructors false true cs) (localBase (cs.any (·.kind = .function)) b) := by
  obtain ⟨first', h⟩ := localElements_map false true cs
    (if b = [] then [] else [b])
  rw [h, List.flatten_append, Bool.false_or, chain]
  by_cases hnil : b = []
  · rw [if_pos hnil, hnil]
    rfl
  · rw [if_neg hnil, localElements, hb.kind]
    exact congrArg (_ ++ ·) (List.append_nil (localBase _ b))

/-- What remains without the qualifiers in front. -/
theorem dropQualifiers_chain (hcs : ∀ c ∈ cs, c.IsReadable) (hb : IsBase b) :
    dropQualifiers (chain cs b) = .ok (chain (cs.dropWhile (·.kind = .qualifier)) b) := by
  induction cs with
  | nil => exact dropQualifiers_of_isQualifier hb.not_qualifier
  | cons c cs ih =>
    obtain ⟨hc, hcs⟩ := List.forall_mem_cons.mp hcs
    rw [chain_cons]
    have hqualifier := isQualifier_text c (chain cs b)
    by_cases hq : c.kind = .qualifier
    · have hnext := next_readable hc (chain cs b)
      rw [decide_eq_true hq] at hqualifier
      rw [dropQualifiers, dif_pos hqualifier]
      split
      · rename_i f hf
        cases hnext.symm.trans hf
      · rename_i r hr
        cases hnext.symm.trans hr
        rw [ih hcs, List.dropWhile_cons, hq]
        rfl
    · rw [decide_eq_false hq] at hqualifier
      rw [dropQualifiers_of_isQualifier hqualifier, List.dropWhile_cons, decide_eq_false hq,
        if_neg Bool.false_ne_true, chain_cons]

/-- What qualifiers in front do not change is the same without them. -/
theorem dropWhile_qualifier {α : Type} {f : List Constructor → α}
    (h : ∀ w cs, f (.qualifier w :: cs) = f cs) (cs : List Constructor) :
    f (cs.dropWhile (·.kind = .qualifier)) = f cs := by
  induction cs with
  | nil => rfl
  | cons c cs ih =>
    cases c with
    | qualifier w => exact ih.trans (h w cs).symm
    | _ => rfl

theorem localConstructors_dropWhile (cs : List Constructor) :
    localConstructors kept first (cs.dropWhile (·.kind = .qualifier)) =
      localConstructors kept first cs := dropWhile_qualifier (fun _ _ => rfl) cs

theorem any_function_dropWhile (cs : List Constructor) :
    (cs.dropWhile (·.kind = .qualifier)).any (·.kind = .function) =
      cs.any (·.kind = .function) :=
  dropWhile_qualifier (f := fun cs => cs.any (·.kind = .function)) (fun _ _ => rfl) cs

theorem localType_chain (hcs : ∀ c ∈ cs, c.IsReadable) (hb : IsBase b) :
    localType .none (chain cs b) = .ok (chain (localConstructors false true cs)
      (localBase (cs.any (·.kind = .function)) b)) := by
  have hdropped : ∀ c ∈ cs.dropWhile (·.kind = .qualifier), c.IsReadable := fun c hc =>
    hcs c ((List.dropWhile_sublist _).subset hc)
  rw [localType_none, dropQualifiers_chain hcs hb]
  show (elements _).map _ = _
  rw [elements_readable hdropped hb]
  show Except.ok (List.flatten _) = _
  rw [flatten_localElements hb, localConstructors_dropWhile, any_function_dropWhile]

/-- Behind a function only qualifiers are left out. -/
theorem localConstructors_kept (cs : List Constructor) :
    localConstructors true first cs = cs.filter (·.kind ≠ .qualifier) := by
  induction cs generalizing first with
  | nil => rfl
  | cons c cs ih => cases c <;> simp [localConstructors, Constructor.kind, ih]

theorem localConstructors_append (hcs : ∀ c ∈ cs, c.kind ≠ .function) :
    localConstructors false first (cs ++ .function ps :: ds) =
      localConstructors false first cs ++ .function ps :: ds.filter (·.kind ≠ .qualifier) := by
  induction cs generalizing first with
  | nil => simp [localConstructors, localConstructors_kept]
  | cons c cs ih =>
    obtain ⟨hc, hrest⟩ := List.forall_mem_cons.mp hcs
    cases c with
    | function ps => exact absurd rfl hc
    | _ => simp [localConstructors, ih hrest]

theorem localConstructors_no_function (hcs : ∀ c ∈ cs, c.kind ≠ .function) :
    ∀ c ∈ localConstructors false first cs, c.kind ≠ .function := by
  induction cs generalizing first with
  | nil => exact nofun
  | cons c cs ih =>
    obtain ⟨hc, hrest⟩ := List.forall_mem_cons.mp hcs
    cases c with
    | function ps => exact absurd rfl hc
    | array d =>
      cases first <;>
        simpa [localConstructors, Constructor.kind] using fun c hc => ih hrest c hc
    | _ => simpa [localConstructors, Constructor.kind] using fun c hc => ih hrest c hc

theorem localConstructors_readable (hcs : ∀ c ∈ cs, c.IsReadable) :
    ∀ c ∈ localConstructors kept first cs, c.IsReadable := by
  induction cs generalizing kept first with
  | nil => exact nofun
  | cons c cs ih =>
    obtain ⟨hc, hrest⟩ := List.forall_mem_cons.mp hcs
    have hpointer : Constructor.pointer.IsReadable := trivial
    cases c with
    | reference =>
      refine List.forall_mem_cons.mpr ⟨?_, ih hrest⟩
      split
      · exact hc
      · exact hpointer
    | array d =>
      refine List.forall_mem_cons.mpr ⟨?_, ih hrest⟩
      split
      · exact hpointer
      · exact hc
    | qualifier w => exact ih hrest
    | _ => exact List.forall_mem_cons.mpr ⟨hc, ih hrest⟩

theorem Balanced.left {t u : Text} (h : Balanced (t ++ u)) (hu : Balanced u) : Balanced t := by
  unfold Balanced at h
  rw [parensAfter_append] at h
  obtain ⟨k, hk, h⟩ := Option.bind_eq_some_iff.mp h
  rw [hu.after] at h
  exact hk.trans h

/-- Outside its parentheses an element has nothing beside its letter and its dot. -/
theorem mem_of_written {letter d : Char} {x front rest : Text} (hx : Balanced x)
    (hletter : letter ≠ '(' ∧ letter ≠ ')') (h : written letter x = front ++ d :: rest)
    (hfront : Balanced front) (hne : front ≠ []) : d ∈ "().".toList := by
  obtain ⟨c, front, rfl⟩ := List.exists_cons_of_ne_nil hne
  obtain ⟨hc, hopened⟩ := List.cons.inj h
  cases front with
  | nil =>
    obtain ⟨hd, -⟩ := List.cons.inj hopened
    rw [← hd]
    decide
  | cons o front =>
    obtain ⟨ho, hinside⟩ := List.cons.inj hopened
    rcases List.append_eq_append_iff.mp hinside with ⟨z, -, hz⟩ | ⟨z, hz, -⟩
    · have hmem : d ∈ ").".toList := by
        rw [hz]
        simp
      exact List.mem_cons_of_mem _ hmem
    · -- the group is still open behind a part of its argument
      unfold Balanced at hfront hx
      rw [hz, parensAfter_append] at hx
      obtain ⟨k, hk, -⟩ := Option.bind_eq_some_iff.mp hx
      rw [parensAfter_cons, ← hc, parensStep_other hletter.1 hletter.2] at hfront
      replace hfront : parensAfter 0 (o :: front) = some 0 := hfront
      rw [← ho, parensAfter_cons, parensStep_open] at hfront
      have hopen := parensAfter_add hk 1
      cases hopen.symm.trans hfront

theorem balanced_constructors {t : Text} (hcs : ∀ c ∈ cs, c.IsReadable) (ht : Balanced t) :
    Balanced (chain cs t) := by
  refine Balanced.append (balanced_flatten fun f hf => ?_) ht
  obtain ⟨c, hc, rfl⟩ := List.mem_map.mp hf
  exact (hcs c hc).dotted.balanced

/-- The letter of a function stands in no other constructor behind a balanced front. -/
theorem text_ne_function {c : Constructor} {s front : Text} (hc : c.IsReadable)
    (hkind : c.kind ≠ .function) (hfront : Balanced front) (hne : front ≠ []) :
    c.text ≠ front ++ 'f' :: s := by
  intro h
  have hmem : 'f' ∉ "().".toList := by decide
  cases c with
  | pointer =>
    have hp : 'f' ∈ "p.".toList := by
      rw [show "p.".toList = _ from h]
      simp
    exact absurd hp (by decide)
  | reference =>
    have hr : 'f' ∈ "r.".toList := by
      rw [show "r.".toList = _ from h]
      simp
    exact absurd hr (by decide)
  | function qs => exact hkind rfl
  | array x => exact hmem (mem_of_written hc (by decide) h hfront hne)
  | qualifier x => exact hmem (mem_of_written hc (by decide) h hfront hne)
  | memberPointer x => exact hmem (mem_of_written hc (by decide) h hfront hne)

/-- A function stands among the constructors only where one of them is one. -/
theorem function_behind {t u front : Text} (hcs : ∀ c ∈ cs, c.IsReadable)
    (hnone : ∀ c ∈ cs, c.kind ≠ .function) (ht : Balanced t)
    (hps : (Constructor.function ps).IsReadable) (hu : Balanced u)
    (h : chain cs t = front ++ ((Constructor.function ps).text ++ u)) :
    ∃ back, front = chain cs back := by
  have hsignature := hps.dotted.balanced.append hu
  induction cs generalizing front with
  | nil => exact ⟨front, rfl⟩
  | cons c cs ih =>
    obtain ⟨hc, hcs⟩ := List.forall_mem_cons.mp hcs
    obtain ⟨hkind, hnone⟩ := List.forall_mem_cons.mp hnone
    rw [chain_cons] at h
    rcases List.append_eq_append_iff.mp h with ⟨front', rfl, hrest⟩ | ⟨s, hs, hrest⟩
    · obtain ⟨back, rfl⟩ := ih hcs hnone hrest
      exact ⟨back, by rw [chain_cons]⟩
    · cases s with
      | nil =>
        have hnext : chain cs t = [] ++ ((Constructor.function ps).text ++ u) := hrest.symm
        obtain ⟨back, hback⟩ := ih hcs hnone hnext
        rw [List.append_nil] at hs
        exact ⟨back, by rw [chain_cons, ← hback, List.append_nil, hs]⟩
      | cons d s =>
        have hd : 'f' = d := (List.cons.inj hrest).1
        have hfront : Balanced front := by
          have hwhole : Balanced (c.text ++ chain cs t) :=
            hc.dotted.balanced.append (balanced_constructors hcs ht)
          exact Balanced.left (h ▸ hwhole) hsignature
        by_cases hempty : front = []
        · rw [hempty, List.nil_append] at h
          obtain ⟨htext, -⟩ := hc.dotted.append_inj hps.dotted h
          have hsame := kind_text c
          rw [htext, kind_text] at hsame
          exact absurd hsame.symm hkind
        · rw [← hd] at hs
          exact absurd hs (text_ne_function hc hkind hfront hempty)

/-- A type is shorter without its qualifiers, if it has any. -/
theorem unqualified_of_length_le (hds : ∀ c ∈ ds, c.IsReadable) (hb : IsBase b)
    (h : (chain ds b).length ≤ (chain (ds.filter (·.kind ≠ .qualifier)) b).length) :
    ∀ c ∈ ds, c.kind ≠ .qualifier := by
  have hsublist : (chain (ds.filter (·.kind ≠ .qualifier)) b).Sublist (chain ds b) :=
    ((List.filter_sublist.map Constructor.text).flatten).append (List.Sublist.refl b)
  have hsame := hsublist.eq_of_length_le h
  have helements := elements_readable hds hb
  rw [← hsame, elements_readable (fun c hc => hds c (List.mem_of_mem_filter hc)) hb] at helements
  have hmap := List.append_left_injective _ (Except.ok.inj helements)
  have hlength := congrArg List.length hmap
  rw [List.length_map, List.length_map, List.length_filter_eq_length_iff] at hlength
  exact fun c hc => of_decide_eq_true (hlength c hc)

/-- A type with a function has a local form in which that function comes behind the local form of
what is in front of it, and what it returns has lost its qualifiers. So the signature is what it was
just where nothing behind the function is qualified. -/
theorem signature_kept_iff (cs ds : List Constructor) (b : Text) (hcs : ∀ c ∈ cs, c.IsReadable)
    (hnone : ∀ c ∈ cs, c.kind ≠ .function)
    (hps : (Constructor.function ps).IsReadable) (hds : ∀ c ∈ ds, c.IsReadable) (hb : IsBase b) :
    localType .none (chain (cs ++ .function ps :: ds) b) =
      .ok (chain (localConstructors false true cs ++
        .function ps :: ds.filter (·.kind ≠ .qualifier)) b) ∧
    ((∃ front : Text, localType .none (chain (cs ++ .function ps :: ds) b) =
        .ok (front ++ chain (.function ps :: ds) b)) ↔
      ∀ c ∈ ds, c.kind ≠ .qualifier) := by
  have hall : ∀ c ∈ cs ++ .function ps :: ds, c.IsReadable :=
    List.forall_mem_append.mpr ⟨hcs, List.forall_mem_cons.mpr ⟨hps, hds⟩⟩
  have hlocal : localType .none (chain (cs ++ .function ps :: ds) b) =
      .ok (chain (localConstructors false true cs ++
        .function ps :: ds.filter (·.kind ≠ .qualifier)) b) := by
    rw [localType_chain hall hb, localConstructors_append hnone]
    simp [localBase, Constructor.kind]
  refine ⟨hlocal, ?_, fun hqualifier => ?_⟩
  · rintro ⟨front, hfront⟩
    have hwhole := Except.ok.inj (hlocal.symm.trans hfront)
    have hkept : ∀ c ∈ Constructor.function ps :: ds.filter (·.kind ≠ .qualifier), c.IsReadable :=
      List.forall_mem_cons.mpr ⟨hps, fun c hc => hds c (List.mem_of_mem_filter hc)⟩
    rw [chain_append, chain_cons (.function ps) ds] at hwhole
    obtain ⟨back, rfl⟩ := function_behind (localConstructors_readable hcs)
      (localConstructors_no_function hnone) (balanced_chain hkept hb) hps (balanced_chain hds hb)
      hwhole
    refine unqualified_of_length_le hds hb ?_
    have hlength := congrArg List.length hwhole
    simp only [chain, List.map_cons, List.flatten_cons, List.length_append] at hlength ⊢
    omega
  · refine ⟨chain (localConstructors false true cs) [], ?_⟩
    have hfilter : ds.filter (·.kind ≠ .qualifier) = ds :=
      List.filter_eq_self.mpr fun c hc => decide_eq_true (hqualifier c hc)
    rw [hlocal, hfilter, chain_append, ← chain_append_right, List.nil_append]

theorem isReadable_singleton {p : CType} (hp : Listable p) (hne : p ≠ []) :
    (Constructor.function [p]).IsReadable := by
  refine ⟨fun q hq => ?_, fun h => hne (List.cons.inj h).1⟩
  rw [List.mem_singleton.mp hq]
  exact listable_iff.mp hp

theorem pointer_signature_kept :
    (∃ front : Text, localType .none "a(4).q(const).p.f(int).p.r.char".toList =
      .ok (front ++ "f(int).p.r.char".toList)) ∧
    localType .none "a(4).q(const).p.f(int).p.r.char".toList =
      .ok "p.p.f(int).p.r.char".toList := by
  have hps : (Constructor.function ["int".toList]).IsReadable :=
    isReadable_singleton (.of_plain (by simp)) (by decide)
  have h := signature_kept_iff [.array "4".toList, .qualifier "const".toList, .pointer]
    [.pointer, .reference] "char".toList
    (by simp [Constructor.IsReadable]; decide) (by simp [Constructor.kind]) hps
    (by simp [Constructor.IsReadable]) (isBase_of_unbracketed (by decide))
  exact ⟨h.2.mpr (by simp [Constructor.kind]), h.1⟩

/-- The constant behind a returned pointer is lost. -/
theorem returned_constant_lost :
    ¬ ∃ front : List Constructor → Text, ∀ (cs ds : List Constructor) (ps : List CType) (b : Text),
      (∀ c ∈ cs, c.IsReadable) → (∀ c ∈ cs, c.kind ≠ .function) →
      (Constructor.function ps).IsReadable → (∀ c ∈ ds, c.IsReadable) → IsBase b →
      localType .none (chain (cs ++ .function ps :: ds) b) =
        .ok (front cs ++ chain (.function ps :: ds) b) := by
  rintro ⟨front, h⟩
  have hps : (Constructor.function ["int".toList]).IsReadable :=
    isReadable_singleton (.of_plain (by simp)) (by decide)
  have hkept := h [.pointer] [.pointer, .qualifier "const".toList] ["int".toList] "char".toList
    (by simp [Constructor.IsReadable]) (by simp [Constructor.kind]) hps
    (by simp [Constructor.IsReadable]; decide) (isBase_of_unbracketed (by decide))
  have hlocal : localType .none (chain [.pointer, .function ["int".toList], .pointer,
      .qualifier "const".toList] "char".toList) = .ok "p.f(int).p.char".toList := by
    decide +kernel
  have hlength := congrArg List.length (Except.ok.inj (hlocal.symm.trans hkept))
  have hlong : "p.f(int).p.char".toList.length < (chain [.function ["int".toList], .pointer,
      .qualifier "const".toList] "char".toList).length := by decide
  rw [List.length_append] at hlength
  exact Nat.not_lt.mpr (Nat.le_add_left ..) (hlength ▸ hlong)

end BindingTypes.CType
