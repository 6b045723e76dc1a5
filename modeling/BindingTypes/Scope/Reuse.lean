import BindingTypes.Scope.Basic

namespace BindingTypes

/-- How answers are used again. Each field is given a question, seen from a scope graph, and the
work that answers it. -/
structure Reuse (m : Type → Type) where
  resolved : ScopeGraph → CType → m CType → m CType
  qualified : ScopeGraph → CType → m CType → m CType

/-- Every question is worked out anew. -/
def Reuse.never {m : Type → Type} : Reuse m := ⟨fun _ _ work => work, fun _ _ work => work⟩

@[simp] theorem Reuse.never_resolved {m : Type → Type} (g : ScopeGraph) (t : CType)
    (work : m CType) : Reuse.never.resolved g t work = work := rfl

@[simp] theorem Reuse.never_qualified {m : Type → Type} (g : ScopeGraph) (t : CType)
    (work : m CType) : Reuse.never.qualified g t work = work := rfl

/-- Answers for the types seen from each scope. They hold for one generation of the scope graph. -/
structure Answers where
  generation : Nat := 0
  entries : List ((ScopeId × CType) × CType) := []
deriving DecidableEq, Repr

namespace Answers

/-- The answers that hold in a generation: none of those given in another one. -/
def during (a : Answers) (generation : Nat) : Answers :=
  if a.generation = generation then a else ⟨generation, []⟩

def get? (a : Answers) (g : ScopeGraph) (t : CType) : Option CType :=
  (a.during g.generation).entries.lookup (g.current, t)

def insert (a : Answers) (g : ScopeGraph) (t answer : CType) : Answers :=
  ⟨g.generation, ((g.current, t), answer) :: (a.during g.generation).entries⟩

theorem get?_of_generation_ne {a : Answers} {g : ScopeGraph} (h : a.generation ≠ g.generation)
    (t : CType) : a.get? g t = none := by
  simp [get?, during, h]

theorem get?_insert (a : Answers) (g : ScopeGraph) (t t' answer : CType) :
    (a.insert g t answer).get? g t' = if t' = t then some answer else a.get? g t' := by
  by_cases h : t' = t
  · subst h
    simp [get?, insert, during]
  · have hk : ((g.current, t') == (g.current, t)) = false := by simp [h]
    simp only [get?, insert, during, if_pos, if_neg h, List.lookup_cons, hk]

end Answers

/-- What was answered so far. -/
structure Memory where
  resolved : Answers := {}
  qualified : Answers := {}
deriving DecidableEq, Repr

abbrev Remembering := StateT Memory (Except Fault)

/-- The outcome of work that starts with nothing answered. -/
def Remembering.afresh {α : Type} (work : Remembering α) : Except Fault α :=
  (work.run {}).map (·.1)

/-- Every answer is kept and given again. -/
def Reuse.always : Reuse Remembering where
  resolved g t work := do
    match (← get).resolved.get? g t with
    | some answer => return answer
    | none =>
      let answer ← work
      modify fun s => { s with resolved := s.resolved.insert g t answer }
      return answer
  qualified g t work := do
    match (← get).qualified.get? g t with
    | some answer => return answer
    | none =>
      let answer ← work
      modify fun s => { s with qualified := s.qualified.insert g t answer }
      return answer

end BindingTypes
