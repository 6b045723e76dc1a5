import BindingTypes.Proofs.CType.Written
import BindingTypes.Proofs.Scope.Readable
import BindingTypes.Proofs.Scope.Unfolding

namespace BindingTypes

namespace CType

variable {t u x y e front base : Text} {fs : List Text}

theorem Dotted.replace (h : Dotted (t ++ '(' :: (x ++ ')' :: u))) (hx : Balanced x)
    (hy : Balanced y) (hu : u ≠ []) : Dotted (t ++ '(' :: (y ++ ')' :: u)) := by
  obtain ⟨z, hz, hpast⟩ := h
  obtain ⟨v, d, rfl⟩ := List.eq_nil_or_concat u |>.resolve_left hu
  have hcut : t ++ '(' :: (x ++ ')' :: v) = z ∧ d = '.' := by
    have hz' : (t ++ '(' :: (x ++ ')' :: v)) ++ [d] = z ++ ['.'] := by
      rw [← hz]
      simp
    have hinj := List.append_inj' hz' rfl
    exact ⟨hinj.1, by simpa using hinj.2⟩
  obtain ⟨rfl, rfl⟩ := hcut
  refine ⟨t ++ '(' :: (y ++ ')' :: v), by simp, ?_⟩
  have hgroup : ∀ w, Balanced w → Depth.zero.past (t ++ '(' :: (w ++ ')' :: v)) =
      (Depth.zero.past t).bind (Depth.past · v) := by
    intro w hw
    have hsplit : t ++ '(' :: (w ++ ')' :: v) = t ++ ('(' :: (w ++ [')']) ++ v) := by simp
    rw [hsplit, past_append]
    congr 1
    funext d
    rw [past_append, past_group hw]
    rfl
  rw [hgroup x hx] at hpast
  rw [hgroup y hy]
  exact hpast

theorem dotted_of_cons {c : Char} (hc : Depth.zero.pastStep c = some .zero)
    (h : Dotted (c :: t)) (ht : t ≠ []) : Dotted t := by
  obtain ⟨z, hz, hpast⟩ := h
  cases z with
  | nil =>
    obtain ⟨-, rfl⟩ := List.cons.inj hz
    exact absurd rfl ht
  | cons d z =>
    obtain ⟨rfl, rfl⟩ := List.cons.inj hz
    rw [past_cons, hc] at hpast
    exact ⟨z, rfl, hpast⟩

theorem split_of_elements (h : elements t = .ok (fs ++ [e])) : split t = .ok (fs.flatten, e) := by
  rw [split, h]
  simp [Except.map]

theorem templateWithin_cases {parts : PartsWithin t.length}
    (h : templateWithin t = .ok (some parts)) :
    ∃ inside, t = parts.stem.1 ++ '<' :: '(' :: (inside ++ ')' :: '>' :: parts.tail) ∧
      Balanced inside ∧ ∀ p ∈ parts.arguments, p.1 ∈ listed inside := by
  unfold templateWithin at h
  split at h
  · cases h
  · cases h
  · rename_i raw hraw
    cases h
    obtain ⟨hwhole, hinside⟩ := templateParts_cases hraw
    refine ⟨raw.inside, hwhole, hinside, fun p hp => ?_⟩
    obtain ⟨q, -, rfl⟩ := List.mem_map.mp hp
    exact q.2

/-- A name stays as types are written when other arguments are put in. -/
theorem written_angled {parts : PartsWithin t.length} {args : List Text}
    (h : templateWithin t = .ok (some parts)) (hargs : Balanced (Text.commaJoin args)) :
    (Balanced t → Balanced (parts.stem.1 ++ angled args ++ parts.tail)) ∧
      (Dotted t → Dotted (parts.stem.1 ++ angled args ++ parts.tail)) := by
  obtain ⟨inside, hshape, hinside, -⟩ := templateWithin_cases h
  have hwhole : ∀ x, parts.stem.1 ++ '<' :: '(' :: (x ++ ')' :: '>' :: parts.tail) =
      (parts.stem.1 ++ ['<']) ++ '(' :: (x ++ ')' :: '>' :: parts.tail) := by simp
  have hresult : parts.stem.1 ++ angled args ++ parts.tail =
      (parts.stem.1 ++ ['<']) ++ '(' :: (Text.commaJoin args ++ ')' :: '>' :: parts.tail) := by
    simp [angled]
  rw [hwhole] at hshape
  rw [hresult]
  constructor
  · intro ht
    exact (hshape ▸ ht).replace hinside hargs
  · intro ht
    exact (hshape ▸ ht).replace hinside hargs (by simp)

theorem argumentsWithin_cases {ps : List { p : CType // p.length < t.length }}
    (h : argumentsWithin t = .ok ps) :
    ∃ inside, group? t = .ok (some inside) ∧ ∀ p ∈ ps, p.1 ∈ listed inside := by
  unfold argumentsWithin at h
  split at h
  · cases h
  · rename_i raw hraw
    cases h
    obtain ⟨inside, hgroup, rfl⟩ := group?_of_arguments hraw
    refine ⟨inside, hgroup, fun p hp => ?_⟩
    obtain ⟨q, -, rfl⟩ := List.mem_map.mp hp
    exact q.2

end CType

namespace ScopeGraph

open CType

/-- One expansion of a type, without the scope that answered. -/
def expandType (g : ScopeGraph) (resolve : CType → Except Fault CType) (t : CType) :
    Except Fault (Option CType) :=
  (·.type) <$> g.expandStep resolve t

variable {g : ScopeGraph} {resolve : CType → Except Fault CType} {n t b e x : Text}
  {fs : List Text} {r : Option CType} {found : Step}

theorem get?_of_lookupAlong {fuel : Nat} {path : List ScopeId} {id id' : ScopeId}
    {entry : TypedefEntry} (h : g.lookupAlong n fuel path id = some (entry, id')) :
    (g.scope id').typedefs.get? n = some entry := by
  induction fuel generalizing path id with
  | zero => cases h
  | succ fuel ih =>
    unfold lookupAlong at h
    split at h
    · cases h
    · dsimp only at h
      split at h
      · rename_i hit
        cases h
        exact hit
      · split at h
        · rename_i hit hfound
          cases h
          obtain ⟨i, -, hi⟩ := List.exists_of_findSome?_eq_some hfound
          exact ih hi
        · obtain ⟨p, -, hp⟩ := Option.bind_eq_some_iff.mp h
          exact ih hp

theorem get?_of_lookup {id id' : ScopeId} {entry : TypedefEntry}
    (h : g.lookup id n = some (entry, id')) : (g.scope id').typedefs.get? n = some entry :=
  get?_of_lookupAlong h

/-- What is found for a name is what a table says of its last component, perhaps qualified. -/
theorem lookupName_found {start id : ScopeId} {u : CType}
    (h : g.lookupName resolve start n = .ok (some (some (u, id)))) :
    ∃ m id' entry, m <:+ n ∧ (g.scope id').typedefs.get? m = some entry ∧
      (u = entry.type ∨ ∃ j, u = g.nameIn j entry.type) := by
  unfold lookupName at h
  split at h
  · rename_i entry hentry
    cases h
    exact ⟨n, start, entry, List.suffix_refl n, hentry, Or.inl rfl⟩
  · split at h
    · rename_i scope last hsplit
      obtain ⟨target, -, h⟩ := bind_eq_ok h
      cases target with
      | none => cases h
      | some target =>
        have h := Option.some.inj (Except.ok.inj h)
        obtain ⟨⟨entry, id'⟩, hit, he⟩ := Option.map_eq_some_iff.mp h
        cases he
        have hsuffix : last <:+ n :=
          ⟨scope ++ "::".toList, by rw [QualifiedName.append_of_split hsplit]; simp⟩
        refine ⟨last, id', entry, hsuffix, get?_of_lookup hit, ?_⟩
        unfold qualifyExpansion
        split
        · exact Or.inr ⟨_, rfl⟩
        · exact Or.inl rfl
    · have h := Option.some.inj (Except.ok.inj h)
      obtain ⟨⟨entry, id'⟩, hit, he⟩ := Option.map_eq_some_iff.mp h
      cases he
      exact ⟨n, _, entry, List.suffix_refl n, get?_of_lookup hit, Or.inl rfl⟩

theorem mem_expandFirst {k : Nat} {expand : { p : CType // p.length < k } → Except Fault (Option CType)}
    {ps : List { p : CType // p.length < k }} {l : List CType}
    (h : expandFirst expand ps = .ok (some l)) {q : CType} (hq : q ∈ l) :
    ∃ p ∈ ps, q = p.1 ∨ expand p = .ok (some q) := by
  induction ps generalizing l with
  | nil => cases h
  | cons p ps ih =>
    unfold expandFirst at h
    obtain ⟨first, hfirst, h⟩ := bind_eq_ok h
    cases first with
    | some expanded =>
      cases h
      rcases List.mem_cons.mp hq with rfl | hq
      · exact ⟨p, List.mem_cons_self, Or.inr hfirst⟩
      · obtain ⟨p', hp', rfl⟩ := List.mem_map.mp hq
        exact ⟨p', List.mem_cons_of_mem _ hp', Or.inl rfl⟩
    | none =>
      obtain ⟨rest, hrest, h⟩ := bind_eq_ok h
      have h := Except.ok.inj h
      obtain ⟨l', rfl, rfl⟩ := Option.map_eq_some_iff.mp h
      rcases List.mem_cons.mp hq with rfl | hq
      · exact ⟨p, List.mem_cons_self, Or.inl rfl⟩
      · obtain ⟨p', hp', hq'⟩ := ih hrest hq
        exact ⟨p', List.mem_cons_of_mem _ hp', hq'⟩

namespace Readable

variable (hg : g.Readable)
include hg

theorem written_of_found {start id : ScopeId} {u : CType}
    (h : g.lookupName resolve start n = .ok (some (some (u, id)))) :
    IsWritten u ∧ ¬ Dotted n := by
  obtain ⟨m, id', entry, hsuffix, hentry, hu⟩ := lookupName_found h
  have hlabel := (hg id').labels m entry hentry
  have htype := (hg id').types m entry hentry
  constructor
  · rcases hu with rfl | ⟨j, rfl⟩
    · exact htype
    · refine ⟨hg.balanced_nameIn htype.1, ?_⟩
      unfold nameIn QualifiedName.within
      split
      · exact htype.2
      · simp
  · intro hdot
    obtain ⟨w, rfl⟩ := hsuffix
    have hlast := hdot.getLast?
    rw [List.getLast?_append] at hlast
    cases hm : m.getLast? with
    | none => exact hlabel.1.2 (List.getLast?_eq_none_iff.mp hm)
    | some c =>
      rw [hm] at hlast
      exact hlabel.2 (hm.trans hlast)

theorem written_expandName {start : ScopeId}
    {expand : { p : CType // p.length < n.length } → Except Fault (Option CType)}
    (hexpand : ∀ p e, expand p = .ok (some e) → Balanced e)
    (h : g.expandName resolve start n expand = .ok found) (he : found.type = some e)
    (hn : Balanced n) : IsWritten e ∧ (Dotted n → Dotted e) := by
  unfold expandName at h
  obtain ⟨known, hknown, h⟩ := bind_eq_ok h
  cases known with
  | none =>
    cases h
    cases he
  | some known =>
    cases known with
    | some hit =>
      obtain ⟨u, scope⟩ := hit
      obtain ⟨hu, hnot⟩ := hg.written_of_found hknown
      cases h
      dsimp only at he
      split at he
      · cases he
      · cases he
        exact ⟨hu, fun hdot => absurd hdot hnot⟩
    | none =>
      obtain ⟨parts, hparts, h⟩ := bind_eq_ok h
      cases parts with
      | none =>
        cases h
        cases he
      | some parts =>
        obtain ⟨args, hargs, h⟩ := bind_eq_ok h
        cases h
        obtain ⟨l, rfl, rfl⟩ := Option.map_eq_some_iff.mp he
        obtain ⟨inside, -, hinside, hlisted⟩ := templateWithin_cases hparts
        have hjoined : Balanced (Text.commaJoin l) := balanced_commaJoin fun q hq => by
          obtain ⟨p, hp, rfl | hp'⟩ := mem_expandFirst hargs hq
          · exact hinside.listed p.1 (hlisted p hp)
          · exact hexpand p q hp'
        obtain ⟨hbalanced, hdotted⟩ := written_angled hparts hjoined
        exact ⟨⟨hbalanced hn, by simp [angled]⟩, hdotted⟩

/-- The expansion of a base is written as types are, and an element becomes an element. -/
theorem written_expandBase
    {expand : { p : CType // p.length < b.length } → Except Fault (Option CType)}
    (hexpand : ∀ p e, expand p = .ok (some e) → Balanced e)
    (h : g.expandBase resolve b expand = .ok found) (he : found.type = some e)
    (hb : Balanced b) : IsWritten e ∧ (Dotted b → Dotted e) := by
  have hletter : ∀ c, c = 'f' ∨ c = 'm' → ∀ x, Balanced x →
      IsWritten (written c x) ∧ (Dotted b → Dotted (written c x)) := by
    intro c hc x hx
    have hdot : Dotted (written c x) := by
      rcases hc with rfl | rfl
      · exact dotted_written (by decide) hx
      · exact dotted_written (by decide) hx
    exact ⟨⟨hdot.balanced, hdot.ne_nil⟩, fun _ => hdot⟩
  unfold expandBase at h
  split at h
  · split at h
    · rename_i name hname
      have hshape := Text.after?_eq_some_iff.mp hname
      have hbalanced : Balanced name := by
        rw [hshape] at hb
        exact hb.right (by decide)
      obtain ⟨hw, hd⟩ := hg.written_expandName (fun p e hp => hexpand _ e hp) h he hbalanced
      refine ⟨hw, fun hdot => hd ?_⟩
      rw [hshape] at hdot
      have hcolon : Depth.zero.pastStep ':' = some .zero := by decide
      have hinner : Dotted (':' :: name) := dotted_of_cons hcolon hdot (by simp)
      refine dotted_of_cons hcolon hinner ?_
      rintro rfl
      have hlast := hinner.getLast?
      simp at hlast
    · exact hg.written_expandName hexpand h he hb
  · split at h
    · obtain ⟨ps, hps, h⟩ := bind_eq_ok h
      obtain ⟨args, hargs, h⟩ := bind_eq_ok h
      cases h
      obtain ⟨l, rfl, rfl⟩ := Option.map_eq_some_iff.mp he
      obtain ⟨inside, hgroup, hlisted⟩ := argumentsWithin_cases hps
      obtain ⟨f, rest, -, hinside⟩ := group?_cases hgroup
      refine hletter 'f' (Or.inl rfl) _ (balanced_commaJoin fun q hq => ?_)
      obtain ⟨p, hp, rfl | hp'⟩ := mem_expandFirst hargs hq
      · exact hinside.listed p.1 (hlisted p hp)
      · exact hexpand p q hp'
    · split at h
      · obtain ⟨p, -, h⟩ := bind_eq_ok h
        obtain ⟨arg, harg, h⟩ := bind_eq_ok h
        cases h
        obtain ⟨q, rfl, rfl⟩ := Option.map_eq_some_iff.mp he
        exact hletter 'm' (Or.inr rfl) q (hexpand p q harg)
      · cases h
        cases he

end Readable

end ScopeGraph

end BindingTypes
