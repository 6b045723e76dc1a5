import BindingTypes.Proofs.Scope.Placement
import Mathlib.Data.List.Lex
import Mathlib.Data.List.Perm.Subperm
import Mathlib.Logic.Relation

namespace BindingTypes

open Relation

/-- A way from one scope to another that enters neither a scope of `path` nor any scope twice. At
each scope a turn is taken, the number of one of the ways on. -/
inductive Route (ways : ScopeId → List ScopeId) :
    List ScopeId → ScopeId → List Nat → ScopeId → Prop
  | here {path : List ScopeId} {id : ScopeId} (h : id ∉ path) : Route ways path id [] id
  | step {path : List ScopeId} {id next d : ScopeId} {k : Nat} {turns : List Nat} (h : id ∉ path)
      (hk : (ways id)[k]? = some next) (hr : Route ways (id :: path) next turns d) :
      Route ways path id (k :: turns) d

namespace Route

variable {ways ways' : ScopeId → List ScopeId} {path path' : List ScopeId} {id next d d' : ScopeId}
  {turns : List Nat}

theorem start (h : Route ways path id turns d) : id ∉ path := by
  cases h with
  | here h => exact h
  | step h _ _ => exact h

theorem mono (h : Route ways path id turns d) (hpath : ∀ i ∈ path', i ∈ path) :
    Route ways path' id turns d := by
  induction h generalizing path' with
  | here h => exact .here fun hm => h (hpath _ hm)
  | @step path id next d k turns h hk _ ih =>
    refine .step (fun hm => h (hpath _ hm)) hk (ih fun i hi => ?_)
    rcases List.mem_cons.mp hi with rfl | hi
    · exact List.mem_cons_self
    · exact List.mem_cons_of_mem _ (hpath i hi)

theorem more (h : Route ways path id turns d)
    (hways : ∀ (i : ScopeId) (k : Nat) (j : ScopeId), (ways i)[k]? = some j →
      (ways' i)[k]? = some j) :
    Route ways' path id turns d := by
  induction h with
  | here h => exact .here h
  | step h hk _ ih => exact .step h (hways _ _ _ hk) ih

/-- Only the ways that leave what is reached matter. -/
theorem congr_ways (h : ∀ i, ReflTransGen (fun a b => b ∈ ways a) id i → ways' i = ways i) :
    Route ways' path id turns d ↔ Route ways path id turns d := by
  constructor
  · intro hr
    induction hr with
    | here hpath => exact .here hpath
    | @step path id next d k turns hpath hk _ ih =>
      rw [h id .refl] at hk
      exact .step hpath hk (ih fun i hi => h i (.head (List.mem_of_getElem? hk) hi))
  · intro hr
    induction hr with
    | here hpath => exact .here hpath
    | @step path id next d k turns hpath hk _ ih =>
      have hk' : (ways' id)[k]? = some next := h id .refl ▸ hk
      exact .step hpath hk' (ih fun i hi => h i (.head (List.mem_of_getElem? hk) hi))

theorem unique (h : Route ways path id turns d) (h' : Route ways path id turns d') : d = d' := by
  induction h with
  | here _ =>
    cases h' with
    | here _ => rfl
  | step _ hk _ ih =>
    cases h' with
    | step _ hk' hr' =>
      cases hk.symm.trans hk'
      exact ih hr'

theorem reaches (h : Route ways path id turns d) : ReflTransGen (fun a b => b ∈ ways a) id d := by
  induction h with
  | here _ => exact .refl
  | step _ hk _ ih => exact .head (List.mem_of_getElem? hk) ih

/-- A route leads past a further scope, or there is one that begins there. -/
theorem avoid {i : ScopeId} (h : Route ways path id turns d) (hi : i ∉ path) :
    Route ways (i :: path) id turns d ∨ ∃ turns', Route ways path i turns' d := by
  induction h with
  | @here path id h =>
    by_cases he : id = i
    · subst he
      exact Or.inr ⟨[], .here h⟩
    · exact Or.inl (.here fun hm => (List.mem_cons.mp hm).elim he h)
  | @step path id next d k turns h hk hr ih =>
    by_cases he : id = i
    · subst he
      exact Or.inr ⟨k :: turns, .step h hk hr⟩
    · have hi' : i ∉ id :: path := fun hm => (List.mem_cons.mp hm).elim (fun hm => he hm.symm) hi
      rcases ih hi' with hr' | ⟨turns', hr'⟩
      · refine Or.inl (.step (fun hm => (List.mem_cons.mp hm).elim he h) hk (hr'.mono fun j hj => ?_))
        simp only [List.mem_cons] at hj ⊢
        tauto
      · exact Or.inr ⟨turns', hr'.mono fun j hj => List.mem_cons_of_mem _ hj⟩

/-- What is reached at all is reached by a route. -/
theorem of_reaches (h : ReflTransGen (fun a b => b ∈ ways a) id d) :
    ∃ turns, Route ways [] id turns d := by
  induction h using ReflTransGen.head_induction_on with
  | refl => exact ⟨[], .here List.not_mem_nil⟩
  | @head id next hnext _ ih =>
    obtain ⟨turns, hr⟩ := ih
    rcases hr.avoid (i := id) List.not_mem_nil with hr' | hr'
    · obtain ⟨k, hk⟩ := List.mem_iff_getElem?.mp hnext
      exact ⟨k :: turns, .step List.not_mem_nil hk hr'⟩
    · exact hr'

/-- No route takes more turns than there are scopes that lead on. -/
theorem length_turns {size : Nat} (h : Route ways path id turns d)
    (hways : ∀ i, ways i ≠ [] → i < size) (hpath : ∀ i ∈ path, i < size) (hnodup : path.Nodup) :
    turns.length + path.length ≤ size := by
  have hbound : ∀ {l : List ScopeId}, l.Nodup → (∀ i ∈ l, i < size) → l.length ≤ size := by
    intro l hl hlt
    have hsub : l ⊆ List.range size := fun i hi => List.mem_range.mpr (hlt i hi)
    have hle := (hl.subperm hsub).length_le
    rwa [List.length_range] at hle
  induction h with
  | here h =>
    rw [List.length_nil, Nat.zero_add]
    exact hbound hnodup hpath
  | @step path id next d k turns h hk _ ih =>
    have hid : id < size := hways id fun hnil => by
      rw [hnil] at hk
      cases hk
    have hrest := ih (List.forall_mem_cons.mpr ⟨hid, hpath⟩) (List.nodup_cons.mpr ⟨h, hnodup⟩)
    rw [List.length_cons] at hrest ⊢
    omega

end Route

end BindingTypes
