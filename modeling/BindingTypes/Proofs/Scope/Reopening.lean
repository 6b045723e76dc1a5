import BindingTypes.Proofs.Scope.Nesting
import BindingTypes.Proofs.Scope.Skeleton

namespace BindingTypes.ScopeGraph

/-- The scope that a name was bound to last. -/
def lastBound (k : Text) : List (Text × ScopeId) → Option ScopeId
  | [] => none
  | b :: bs => (lastBound k bs).or (if b.1 = k then some b.2 else none)

/-- The scopes that `g'` has beyond those of `g`, under their qualified names. -/
def opens (g g' : ScopeGraph) : List (Text × ScopeId) :=
  (List.range' g.scopes.length (g'.scopes.length - g.scopes.length)).map fun id => (g'.nameOf id, id)

/-- The names that an edit binds: an alias, or the names of the scopes that it opens. -/
def bindings (g g' : ScopeGraph) : Edit → List (Text × ScopeId)
  | .aliasName n id => [(g.nameIn g.current n, id)]
  | _ => g.opens g'

/-- Permitted edits lead from the first graph to the last, whatever is remembered between them, and
bind the names of the log. -/
inductive EditedBy (permits : ScopeGraph → Edit → Prop) (g₀ : ScopeGraph) :
    List (Text × ScopeId) → ScopeGraph → Prop
  | start : EditedBy permits g₀ [] g₀
  | edit {g g' : ScopeGraph} {e : Edit} {s s' : Memory} {log : List (Text × ScopeId)}
      (hg : EditedBy permits g₀ log g) (he : permits g e)
      (h : (g.editVia .always e).run s = .ok (g', s')) :
      EditedBy permits g₀ (log ++ g.bindings g' e) g'

/-- Scopes stay where they are under the names they have. -/
structure Stays (g g' : ScopeGraph) : Prop where
  length : g.scopes.length ≤ g'.scopes.length
  name : ∀ id, id < g.scopes.length → g'.nameOf id = g.nameOf id
  parent : ∀ id, id < g.scopes.length → (g'.scope id).parent = (g.scope id).parent

/-- Scopes may be opened, and are found under their names then. -/
structure Grown (g g' : ScopeGraph) : Prop extends Stays g g' where
  byName : ∀ k, g'.byName.get? k = (lastBound k (g.opens g')).or (g.byName.get? k)

variable {permits : ScopeGraph → Edit → Prop} {g g' g'' g₀ : ScopeGraph} {id : ScopeId} {k n : Text}
variable {log log' : List (Text × ScopeId)}

theorem lastBound_append :
    lastBound k (log ++ log') = (lastBound k log').or (lastBound k log) := by
  induction log with
  | nil => simp [lastBound]
  | cons b log ih => rw [List.cons_append, lastBound, ih, lastBound, Option.or_assoc]

theorem opens_of_length (h : g'.scopes.length = g.scopes.length) : g.opens g' = [] := by
  rw [opens, h, Nat.sub_self]
  rfl

theorem opens_opened (g : ScopeGraph) (n : Text) :
    g.opens (g.opened n) = [(g.nameIn g.current n, g.scopes.length)] := by
  have hone : (g.opened n).scopes.length - g.scopes.length = 1 := by
    rw [length_opened]
    exact Nat.add_sub_cancel_left _ 1
  rw [opens, hone, List.range'_one, List.map_singleton, nameOf_opened_last]

theorem Stays.refl (g : ScopeGraph) : Stays g g := ⟨Nat.le_refl _, fun _ _ => rfl, fun _ _ => rfl⟩

theorem Stays.trans (h : Stays g g') (h' : Stays g' g'') : Stays g g'' where
  length := Nat.le_trans h.length h'.length
  name id hid := (h'.name id (Nat.lt_of_lt_of_le hid h.length)).trans (h.name id hid)
  parent id hid := (h'.parent id (Nat.lt_of_lt_of_le hid h.length)).trans (h.parent id hid)

theorem Stays.nameIn (h : Stays g g') (hid : id < g.scopes.length) (n : Text) :
    g'.nameIn id n = g.nameIn id n := by
  rw [ScopeGraph.nameIn, ScopeGraph.nameIn, h.name id hid]

theorem Stays.opens_trans (h : Stays g g') (h' : Stays g' g'') :
    g.opens g'' = g.opens g' ++ g'.opens g'' := by
  have hl := h.length
  have hl' := h'.length
  have hnames : g.opens g' = (List.range' g.scopes.length
      (g'.scopes.length - g.scopes.length)).map fun id => (g''.nameOf id, id) := by
    refine List.map_congr_left fun id hid => ?_
    have hlt := (List.mem_range'_1.mp hid).2
    rw [h'.name id (by omega)]
  have hranges : List.range' g.scopes.length (g''.scopes.length - g.scopes.length) =
      List.range' g.scopes.length (g'.scopes.length - g.scopes.length) ++
        List.range' g'.scopes.length (g''.scopes.length - g'.scopes.length) := by
    have happend := List.range'_append_1 (s := g.scopes.length)
      (m := g'.scopes.length - g.scopes.length) (n := g''.scopes.length - g'.scopes.length)
    rw [Nat.add_sub_cancel' hl] at happend
    rw [happend]
    congr 1
    omega
  rw [hnames, opens, opens, hranges, List.map_append]

namespace Grown

/-- A change of tables and lists opens no scope. -/
theorem of_same (hl : g'.scopes.length = g.scopes.length) (hb : g'.byName = g.byName)
    (hn : ∀ id, g'.nameOf id = g.nameOf id)
    (hp : ∀ id, (g'.scope id).parent = (g.scope id).parent) : Grown g g' where
  length := Nat.le_of_eq hl.symm
  name id _ := hn id
  parent id _ := hp id
  byName k := by
    rw [opens_of_length hl, hb]
    rfl

theorem of_scopes (hs : g'.scopes = g.scopes) (hb : g'.byName = g.byName) : Grown g g' :=
  of_same (congrArg List.length hs) hb (fun id => congrArg Scope.name (scope_eq_of_scopes hs id))
    fun id => congrArg Scope.parent (scope_eq_of_scopes hs id)

theorem trans (h : Grown g g') (h' : Grown g' g'') : Grown g g'' where
  toStays := h.toStays.trans h'.toStays
  byName k := by
    rw [h.toStays.opens_trans h'.toStays, lastBound_append, h'.byName, h.byName, Option.or_assoc]

theorem modifyScope (g : ScopeGraph) (id : ScopeId) {f : Scope → Scope}
    (hn : ∀ s, (f s).name = s.name) (hp : ∀ s, (f s).parent = s.parent) :
    Grown g (g.modifyScope id f) := by
  refine of_same (length_modifyScope g id f) rfl (fun j => ?_) fun j => ?_
  · rw [nameOf, nameOf, scope_modifyScope]
    split
    · exact hn _
    · rfl
  · rw [scope_modifyScope]
    split
    · exact hp _
    · rfl

theorem change (g : ScopeGraph) (id : ScopeId) {f : Scope → Scope}
    (hn : ∀ s, (f s).name = s.name) (hp : ∀ s, (f s).parent = s.parent) :
    Grown g (touch (g.modifyScope id f)) :=
  (modifyScope g id hn hp).trans (of_scopes rfl rfl)

theorem inheritFrom (g : ScopeGraph) (i : ScopeId) : Grown g (g.inheritFrom i) := by
  unfold ScopeGraph.inheritFrom
  split
  · exact of_scopes rfl rfl
  · exact change g g.current (fun _ => rfl) fun _ => rfl

theorem useNamespace (g : ScopeGraph) (i : ScopeId) : Grown g (g.useNamespace i) := by
  have hi := inheritFrom g i
  unfold ScopeGraph.useNamespace
  generalize g.inheritFrom i = g₁ at hi ⊢
  dsimp only
  split
  · exact hi.trans (of_scopes rfl rfl)
  · exact hi.trans (change g₁ g₁.current (fun _ => rfl) fun _ => rfl)

theorem opened (g : ScopeGraph) (n : Text) : Grown g (g.opened n) where
  length := by
    rw [length_opened]
    exact Nat.le_succ _
  name _ hid := nameOf_opened g n (Nat.ne_of_lt hid)
  parent _ hid := by rw [scope_opened, if_neg (Nat.ne_of_lt hid)]
  byName k := by
    rw [opens_opened, get?_byName_opened]
    by_cases hk : k = g.nameIn g.current n
    · simp [lastBound, hk]
    · simp [lastBound, hk, Ne.symm hk]

theorem enter (g : ScopeGraph) (name : Option Text) : Grown g (g.enter name).2 := by
  rcases g.enter_cases name with ⟨i, -, h⟩ | h
  · rw [h]
    exact of_scopes rfl rfl
  · rw [h]
    exact opened g _

theorem leave (g : ScopeGraph) : Grown g g.leave.2 :=
  leave_keeps (P := Grown g) (of_scopes rfl rfl) fun _ _ => of_scopes rfl rfl

theorem standIn (g : ScopeGraph) (n : Text) (target : ScopeId) : Grown g (g.standIn n target) := by
  have hopen := enter g (some n)
  unfold ScopeGraph.standIn
  generalize g.enter (some n) = r at hopen ⊢
  have halias := hopen.trans (modifyScope r.2 r.1 (f := fun s => { s with isAlias := true })
    (fun _ => rfl) fun _ => rfl)
  exact (halias.trans (inheritFrom _ target)).trans (leave _)

theorem insertTypedef (g : ScopeGraph) (id : ScopeId) (n : Text) (e : TypedefEntry) :
    Grown g (g.insertTypedef id n e) :=
  change g id (fun _ => rfl) fun _ => rfl

theorem undefine (g : ScopeGraph) (n : Text) : Grown g (g.undefine n).2 := by
  unfold ScopeGraph.undefine
  split
  · exact change g g.current (fun _ => rfl) fun _ => rfl
  · exact of_scopes rfl rfl

theorem declaration {e : Edit} {s s' : Memory} (he : e.declared? = some n)
    (h : (g.editVia .always e).run s = .ok (g', s')) : Grown g g' :=
  declaration_keeps (P := fun g' => Grown g g')
    (fun g₁ id e hg => hg.trans (insertTypedef g₁ id n e))
    (fun g₁ _ target hg _ => hg.trans (standIn g₁ n target)) he (of_scopes rfl rfl) h

end Grown

/-- What an edit does to the names under which scopes are found. -/
theorem bindings_of_edit {e : Edit} {s s' : Memory}
    (h : (g.editVia .always e).run s = .ok (g', s')) : Stays g g' ∧
      ∀ k, g'.byName.get? k = (lastBound k (g.bindings g' e)).or (g.byName.get? k) := by
  have hgrown : g.bindings g' e = g.opens g' → Grown g g' → Stays g g' ∧
      ∀ k, g'.byName.get? k = (lastBound k (g.bindings g' e)).or (g.byName.get? k) := by
    intro hb hg
    rw [hb]
    exact ⟨hg.toStays, hg.byName⟩
  cases e with
  | enter name =>
    obtain ⟨rfl, -⟩ := run_pure_eq_ok h
    exact hgrown rfl (.enter g name)
  | leave =>
    obtain ⟨rfl, -⟩ := run_pure_eq_ok h
    exact hgrown rfl (.leave g)
  | select id =>
    obtain ⟨rfl, -⟩ := run_pure_eq_ok h
    exact hgrown rfl (.of_scopes rfl rfl)
  | inheritFrom id =>
    obtain ⟨rfl, -⟩ := run_pure_eq_ok h
    exact hgrown rfl (.inheritFrom g id)
  | useNamespace id =>
    obtain ⟨rfl, -⟩ := run_pure_eq_ok h
    exact hgrown rfl (.useNamespace g id)
  | aliasName n id =>
    obtain ⟨rfl, -⟩ := run_pure_eq_ok h
    refine ⟨⟨Nat.le_refl _, fun _ _ => rfl, fun _ _ => rfl⟩, fun k => ?_⟩
    show (g.byName.insert (g.nameIn g.current n) id).get? k = _
    rw [Table.get?_insert]
    by_cases hk : k = g.nameIn g.current n
    · simp [bindings, lastBound, hk]
    · simp [bindings, lastBound, hk, Ne.symm hk]
  | attachSymbols symbols =>
    obtain ⟨rfl, -⟩ := run_pure_eq_ok h
    exact hgrown rfl (.change g g.current (fun _ => rfl) fun _ => rfl)
  | define type name => exact hgrown rfl (.declaration rfl h)
  | defineClass name => exact hgrown rfl (.declaration rfl h)
  | declareUsing qualified => exact hgrown rfl (.declaration rfl h)
  | undefine name =>
    obtain ⟨rfl, -⟩ := run_pure_eq_ok h
    exact hgrown rfl (.undefine g name)

/-- A name leads to the scope it was bound to last, or where it led in the beginning. -/
theorem EditedBy.byName (h : EditedBy permits g₀ log g) : Stays g₀ g ∧
    ∀ k, g.byName.get? k = (lastBound k log).or (g₀.byName.get? k) := by
  induction h with
  | start => exact ⟨.refl g₀, fun k => rfl⟩
  | edit _ _ hrun ih =>
    obtain ⟨hstays, hnames⟩ := bindings_of_edit hrun
    refine ⟨ih.1.trans hstays, fun k => ?_⟩
    rw [hnames, ih.2, lastBound_append, Option.or_assoc]

/-- A scope is entered again from the scope around it exactly while its name leads to it. -/
theorem enters_again_iff {p : ScopeId} (hid : id < g.scopes.length)
    (hp : (g.scope id).parent = some p) (hn : n ≠ unnamed) :
    ((g.select (some p)).2.enter (some n)).1 = id ↔ g.byName.get? (g.nameIn p n) = some id := by
  rcases (g.select (some p)).2.enter_cases (some n) with ⟨i, hi, h⟩ | h
  · rw [h]
    have hfound : g.byName.get? (g.nameIn p n) = some i := get?_of_reopened? hi
    rw [hfound, Option.some_inj]
  · rw [h]
    have hnew : g.scopes.length ≠ id := Ne.symm (Nat.ne_of_lt hid)
    refine ⟨fun hlast => absurd hlast hnew, fun hfound => ?_⟩
    have hreopened : (g.select (some p)).2.reopened? n = some id := by
      have hguard : ∀ {q : Prop} [Decidable q], q → (guard q : Option Unit) = some () :=
        fun hq => if_pos hq
      have hfound' : (g.select (some p)).2.byName.get?
          ((g.select (some p)).2.nameIn (g.select (some p)).2.current n) = some id := hfound
      have hback : ((g.select (some p)).2.scope id).parent = some (g.select (some p)).2.current := hp
      unfold reopened?
      rw [hguard hn, hfound']
      show (guard (((g.select (some p)).2.scope id).parent = some _) >>= fun _ => some id) = some id
      rw [hguard hback]
      rfl
    unfold enter at h
    simp only [Option.getD_some, hreopened] at h
    have hlast : id = g.scopes.length := congrArg Prod.fst h
    exact absurd hlast.symm hnew

/-- Entering a scope again changes none. -/
theorem scope_of_entered_again {p : ScopeId} (hid : id < g.scopes.length)
    (h : ((g.select (some p)).2.enter (some n)).1 = id) :
    ((g.select (some p)).2.enter (some n)).2.scope id = g.scope id := by
  rcases (g.select (some p)).2.enter_cases (some n) with ⟨i, -, he⟩ | he
  · rw [he]
    rfl
  · rw [he] at h
    exact absurd h (Ne.symm (Nat.ne_of_lt hid))

/-- An edit that opens scopes and declares names only under identifiers, and no aliases. -/
def NamesIdentifiers (g : ScopeGraph) (e : Edit) : Prop :=
  DeclaresIdentifiers g e ∨ (∃ symbols, e = .attachSymbols symbols) ∨
    ∃ qualified, e = .declareUsing qualified ∧ IsIdentifier (QualifiedName.split qualified).2

theorem WellNamed.edit_identifiers {e : Edit} {s s' : Memory} (hg : WellNamed g)
    (he : NamesIdentifiers g e) (h : (g.editVia .always e).run s = .ok (g', s')) :
    WellNamed g' := by
  rcases he with he | ⟨symbols, rfl⟩ | ⟨qualified, rfl, hn⟩
  · exact hg.edit he h
  · obtain ⟨rfl, -⟩ := run_pure_eq_ok h
    exact (hg.modifyScope (f := fun s => { s with symbols := some symbols }) (fun _ => rfl)
      (fun _ => rfl) (hg.names g.current)).touch
  · exact hg.declaration hn rfl h

theorem ReachedBy.wellNamed_identifiers (h : ReachedBy NamesIdentifiers g) : WellNamed g := by
  induction h with
  | new budget => exact wellNamed_new budget
  | edit _ he hrun ih => exact ih.edit_identifiers he hrun

theorem EditedBy.wellNamed_identifiers (h : EditedBy NamesIdentifiers g₀ log g)
    (hg₀ : WellNamed g₀) : WellNamed g := by
  induction h with
  | start => exact hg₀
  | edit _ he hrun ih => exact ih.edit_identifiers he hrun

/-- A named scope that was opened inside the current one is entered again from there, whatever
edits follow, exactly if no other scope was bound to its qualified name last. It is as it was then.
Where scopes are opened and names declared only under identifiers, without aliases, it is always
entered again. -/
theorem entered_again_iff_bound_last (hg₀ : ReachedBy NamesGivenOut g₀) (hn : n ≠ unnamed)
    (hnew : (g₀.enter (some n)).1 = g₀.scopes.length)
    (h : EditedBy NamesGivenOut (g₀.enter (some n)).2 log g) :
    let again := (g.select (some g₀.current)).2.enter (some n)
    (again.1 = g₀.scopes.length ↔
      ∀ id, lastBound (g.nameIn g₀.current n) log = some id → id = g₀.scopes.length) ∧
    (again.1 = g₀.scopes.length → again.2.scope g₀.scopes.length = g.scope g₀.scopes.length) ∧
    (ReachedBy NamesIdentifiers g₀ → EditedBy NamesIdentifiers (g₀.enter (some n)).2 log g →
      IsIdentifier n → again.1 = g₀.scopes.length) := by
  intro again
  have hcurrent := hg₀.inRange.current
  have hopened : (g₀.enter (some n)).2 = g₀.opened n := by
    rcases g₀.enter_cases (some n) with ⟨i, hi, he⟩ | he
    · rw [he] at hnew
      have hlt := hg₀.inRange.found _ i (get?_of_reopened? hi)
      exact absurd hnew (Nat.ne_of_lt hlt)
    · rw [he]
      rfl
  rw [hopened] at h
  obtain ⟨hstays, hnames⟩ := h.byName
  have hlast : g₀.scopes.length < (g₀.opened n).scopes.length := by
    rw [length_opened]
    exact Nat.lt_succ_self _
  have hlt : g₀.scopes.length < g.scopes.length := Nat.lt_of_lt_of_le hlast hstays.length
  have hparent : (g.scope g₀.scopes.length).parent = some g₀.current := by
    rw [hstays.parent _ hlast, scope_opened, if_pos rfl]
  have hin : g.nameIn g₀.current n = g₀.nameIn g₀.current n := by
    rw [hstays.nameIn (Nat.lt_trans hcurrent hlast), nameIn_opened g₀ n n hcurrent]
  have hagain := enters_again_iff hlt hparent hn
  refine ⟨?_, scope_of_entered_again hlt, fun hg hedits hid => ?_⟩
  · rw [hagain, hnames, hin, get?_byName_opened, if_pos rfl]
    cases lastBound (g₀.nameIn g₀.current n) log with
    | none => simp
    | some id => simp
  · have hwell : WellNamed (g₀.enter (some n)).2 := hg.wellNamed_identifiers.enter hid
    have hfound := (hedits.wellNamed_identifiers hwell).found hlt
    have hname : g.nameOf g₀.scopes.length = g₀.nameIn g₀.current n := by
      rw [hstays.name _ hlast, nameOf_opened_last]
    rw [hname, ← hin] at hfound
    exact hagain.mpr hfound

/-- A scope `X` is opened inside an unnamed scope. Another `X` inside a second unnamed scope takes
its qualified name, and the first one is not entered again. -/
theorem bound_last_by_other : ∃ g₀ g : ScopeGraph, ∃ log, ReachedBy NamesGivenOut g₀ ∧
    EditedBy NamesGivenOut (g₀.enter (some "X".toList)).2 log g ∧
    lastBound "<unnamed>::X".toList log = some 4 ∧
    ((g.select (some g₀.current)).2.enter (some "X".toList)).1 ≠ g₀.scopes.length := by
  have hg₀ : ReachedBy NamesGivenOut ((new 0).enter none).2 :=
    .edit (e := .enter none) (s := {}) (.new 0) trivial rfl
  generalize hG : ((new 0).enter none).2 = g₀ at hg₀
  have hselect : EditedBy NamesGivenOut (g₀.enter (some "X".toList)).2 _ _ :=
    .edit (e := .select none) (s := {}) .start (fun i hi => by cases hi) rfl
  have hsecond := hselect.edit (e := .enter none) (s := {}) trivial rfl
  have hlast := hsecond.edit (e := .enter "X".toList) (s := {}) trivial rfl
  generalize hlog : _ ++ ScopeGraph.bindings _ _ (.enter (some "X".toList)) = log at hlast
  have hbound : lastBound "<unnamed>::X".toList log = some 4 := by
    rw [← hlog, ← hG]
    decide
  have hlength : g₀.scopes.length = 2 := by
    rw [← hG]
    rfl
  obtain ⟨hiff, -, -⟩ := entered_again_iff_bound_last hg₀ (by decide) (by rw [← hG]; decide) hlast
  refine ⟨g₀, _, log, hg₀, hlast, hbound, fun hagain => ?_⟩
  have hfour := hiff.mp hagain 4 (by rw [← hbound, ← hG]; rfl)
  rw [hlength] at hfour
  cases hfour

/-- Scope 2 was opened as `X` inside scope 1. Opening `X` there again gives a new scope. -/
theorem reopened_scope_lost :
    let g₀ := ((new 0).enter none).2
    let g := ((((g₀.enter (some "X".toList)).2.select none).2.enter none).2.enter
      (some "X".toList)).2
    g₀.current = 1 ∧ (g₀.enter (some "X".toList)).1 = 2 ∧
      (g.scope 2).parent = some 1 ∧ ((g.select (some 1)).2.enter (some "X".toList)).1 = 5 := by
  decide

end BindingTypes.ScopeGraph
