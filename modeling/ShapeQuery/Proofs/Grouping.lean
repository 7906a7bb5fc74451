import ShapeQuery.Proofs.InOrder
import ShapeQuery.Query

/-!
# Groupings of a condition

The text of a condition is its predicates in order with the token of a combinator
between each two.  The grouping of the tree is what this leaves out.

**Regrouping.**  One rotation turns `(a op b) op' c` into `a op (b op' c)`, whatever
the two combinators are.  Two conditions are regroupings of each other when
rotations at any places, in either direction, lead from one to the other.

**Results.**
* `regroups_iff_views`: two conditions are regroupings of each other iff they have
  the same predicates and the same combinators in order.
* `render_alternates`: the text alternates, so that it is the same for all
  regroupings, and a query that filters by one of them is the query that filters
  by any other.
-/

namespace ShapeQuery

/-- Predicates in order, after each but the last a combinator between two spaces. -/
def alternation : List Predicate → List Combinator → String
  | [], _ => ""
  | p :: _, [] => p.render
  | p :: rest, op :: ops => p.render ++ " " ++ op.token ++ " " ++ alternation rest ops

theorem alternation_append
    {ps : List Predicate} {ops : List Combinator}
    (h : ps.length = ops.length + 1)
    (qs : List Predicate) (op : Combinator) (ops' : List Combinator) :
    alternation (ps ++ qs) (ops ++ op :: ops') =
      alternation ps ops ++ " " ++ op.token ++ " " ++ alternation qs ops' := by
  induction ps generalizing ops with
  | nil =>
      simp at h
  | cons p ps ih =>
      cases ops with
      | nil =>
          have hps : ps = [] := by
            simpa using h
          subst hps
          rfl
      | cons o ops =>
          have hrest : ps.length = ops.length + 1 := by
            simpa using h
          simp only [List.cons_append, alternation, ih hrest, String.append_assoc]

namespace Condition

theorem render_eq_alternation_views
    (c : Condition) :
    c.render = alternation c.predicates c.combinators := by
  induction c with
  | leaf p =>
      rfl
  | combine left op right ihl ihr =>
      rw [predicates, combinators, alternation_append left.length_predicates,
        ← ihl, ← ihr, render]

/-- Rotations at any places and in either direction. -/
inductive Regroups : Condition → Condition → Prop
  | refl (c : Condition) :
      Regroups c c
  | rotate (a : Condition) (op : Combinator) (b : Condition) (op' : Combinator) (c : Condition) :
      Regroups (combine (combine a op b) op' c) (combine a op (combine b op' c))
  | left {a a' : Condition} (op : Combinator) (b : Condition) :
      Regroups a a' → Regroups (combine a op b) (combine a' op b)
  | right (a : Condition) (op : Combinator) {b b' : Condition} :
      Regroups b b' → Regroups (combine a op b) (combine a op b')
  | symm {c d : Condition} :
      Regroups c d → Regroups d c
  | trans {c d e : Condition} :
      Regroups c d → Regroups d e → Regroups c e

/-- The regrouping in which everything is joined to what stands before it. -/
def leftForm (c : Condition) : Condition :=
  (leaf c.first).joinAll (c.steps.map fun step => (step.1, leaf step.2))

variable {c d : Condition}

theorem Regroups.views_eq
    (h : c.Regroups d) :
    c.predicates = d.predicates ∧ c.combinators = d.combinators := by
  induction h with
  | refl c =>
      exact ⟨rfl, rfl⟩
  | rotate a op b op' c =>
      simp [predicates, combinators]
  | left op b _ ih =>
      simp [predicates, combinators, ih.1, ih.2]
  | right a op _ ih =>
      simp [predicates, combinators, ih.1, ih.2]
  | symm _ ih =>
      exact ⟨ih.1.symm, ih.2.symm⟩
  | trans _ _ ih ih' =>
      exact ⟨ih.1.trans ih'.1, ih.2.trans ih'.2⟩

theorem Regroups.joinAll
    (h : c.Regroups d) (xs : List (Combinator × Condition)) :
    (c.joinAll xs).Regroups (d.joinAll xs) := by
  induction xs generalizing c d with
  | nil =>
      exact h
  | cons x xs ih =>
      exact ih (.left x.1 x.2 h)

/-- Joining a whole chain on the right is joining its parts one after another. -/
theorem regroups_joinAll
    (a : Condition) (op : Combinator) (c : Condition) (xs : List (Combinator × Condition)) :
    (combine a op (c.joinAll xs)).Regroups ((combine a op c).joinAll xs) := by
  induction xs generalizing c with
  | nil =>
      exact .refl _
  | cons x xs ih =>
      have hchain := ih (combine c x.1 x.2)
      have hrotate : (combine a op (combine c x.1 x.2)).Regroups
          (combine (combine a op c) x.1 x.2) :=
        (Regroups.rotate a op c x.1 x.2).symm
      exact hchain.trans (hrotate.joinAll xs)

theorem leftForm_combine
    (left right : Condition) (op : Combinator) :
    (combine left op right).leftForm =
      (combine left.leftForm op (leaf right.first)).joinAll
        (right.steps.map fun step => (step.1, leaf step.2)) := by
  simp only [leftForm, first, steps, List.map_append, List.map_cons, joinAll_append]
  rfl

theorem regroups_leftForm
    (c : Condition) :
    c.Regroups c.leftForm := by
  induction c with
  | leaf p =>
      exact .refl _
  | combine left op right ihl ihr =>
      rw [leftForm_combine]
      have hleft := Regroups.left op right ihl
      have hright := Regroups.right left.leftForm op ihr
      have hjoin := regroups_joinAll left.leftForm op (leaf right.first)
        (right.steps.map fun step => (step.1, leaf step.2))
      exact (hleft.trans hright).trans hjoin

/-- The left form depends on the in-order reading alone. -/
theorem leftForm_eq_of_views
    (h : c.predicates = d.predicates ∧ c.combinators = d.combinators) :
    c.leftForm = d.leftForm := by
  obtain ⟨hfirst, hsteps⟩ := views_eq_iff.mp h
  rw [leftForm, leftForm, hfirst, hsteps]

theorem regroups_iff_views :
    c.Regroups d ↔ c.predicates = d.predicates ∧ c.combinators = d.combinators := by
  constructor
  · exact Regroups.views_eq
  · intro h
    have hd := (regroups_leftForm d).symm
    rw [← leftForm_eq_of_views h] at hd
    exact (regroups_leftForm c).trans hd

theorem Regroups.render_eq
    (h : c.Regroups d) :
    c.render = d.render := by
  obtain ⟨hpredicates, hcombinators⟩ := h.views_eq
  rw [render_eq_alternation_views, render_eq_alternation_views, hpredicates, hcombinators]

/--
The text of a condition is its predicates in order, with a combinator between each
two of them.  Conditions with the same predicates and combinators in order are the
regroupings of each other; they have the same text, and a query that filters by one
of them, handed over in whichever way, is the query that filters by the other.
-/
theorem render_alternates
    (c : Condition) :
    c.render = alternation c.predicates c.combinators ∧
    c.predicates.length = c.combinators.length + 1 ∧
    (∀ d : Condition,
      c.Regroups d ↔ c.predicates = d.predicates ∧ c.combinators = d.combinators) ∧
    ∀ d : Condition, c.Regroups d →
      c.render = d.render ∧
      c.predicates = d.predicates ∧
      ∀ q : Query,
        q.filterCondition c = q.filterCondition d ∧
        q.filterClause ⟨c⟩ = q.filterClause ⟨d⟩ ∧
        q.filter (fun start => start.condition c) = q.filter (fun start => start.condition d) := by
  refine ⟨c.render_eq_alternation_views, c.length_predicates, fun d => regroups_iff_views, ?_⟩
  intro d h
  have htext : c.render = d.render := h.render_eq
  have hclause : ∀ q : Query, q.filterClause ⟨c⟩ = q.filterClause ⟨d⟩ := by
    intro q
    simp only [Query.filterClause, WhereClause.render, htext]
  exact ⟨htext, h.views_eq.1, fun q => ⟨hclause q, hclause q, hclause q⟩⟩

end Condition
end ShapeQuery
