import ShapeQuery.Condition

/-!
# Conditions in order

The in-order reading of a condition: its first predicate, and after that the
combinators, each together with the predicate that follows it.  The two views
`predicates` and `combinators` are the two sides of this one list, so they
determine it and are determined by it.
-/

namespace ShapeQuery
namespace Condition

/-- The predicate with which the text begins. -/
def first : Condition → Predicate
  | leaf p => p
  | combine left _ _ => left.first

/-- The combinators in order, each with the predicate after it. -/
def steps : Condition → List (Combinator × Predicate)
  | leaf _ => []
  | combine left op right =>
      left.steps ++ (op, right.first) :: right.steps

variable {c d : Condition}

theorem predicates_eq_first_steps
    (c : Condition) :
    c.predicates = c.first :: c.steps.map Prod.snd := by
  induction c with
  | leaf p =>
      rfl
  | combine left op right ihl ihr =>
      simp [predicates, first, steps, ihl, ihr]

theorem combinators_eq_steps
    (c : Condition) :
    c.combinators = c.steps.map Prod.fst := by
  induction c with
  | leaf p =>
      rfl
  | combine left op right ihl ihr =>
      simp [combinators, steps, ihl, ihr]

/-- The two views agree iff the in-order readings do. -/
theorem views_eq_iff :
    c.predicates = d.predicates ∧ c.combinators = d.combinators ↔
      c.first = d.first ∧ c.steps = d.steps := by
  simp only [predicates_eq_first_steps, combinators_eq_steps, List.cons.injEq]
  constructor
  · rintro ⟨⟨hfirst, hsnd⟩, hfst⟩
    have hc : c.steps = (d.steps.map Prod.fst).zip (d.steps.map Prod.snd) :=
      List.zip_of_prod hfst hsnd
    have hd : d.steps = (d.steps.map Prod.fst).zip (d.steps.map Prod.snd) :=
      List.zip_of_prod rfl rfl
    exact ⟨hfirst, hc.trans hd.symm⟩
  · rintro ⟨hfirst, hsteps⟩
    exact ⟨⟨hfirst, by rw [hsteps]⟩, by rw [hsteps]⟩

end Condition
end ShapeQuery
