import ShapeQuery.Proofs.ChainFold
import ShapeQuery.Proofs.Grouping

/-!
# The left form of a condition

The left form of a condition is rebuilt from its in-order reading: it starts from the
first predicate and joins the other predicates one by one, each to everything before
it.  It is a regrouping, so its text and its views are those of the condition.

**Fixed trees.**  A condition is its own left form iff each of its joins has a single
predicate on the right (`leftForm_eq_self_iff`).  A tree such as `a | (b & c)` is not:
its left form is `(a | b) & c`.

**Chains.**  A chain joins to everything before it.  So if all its right-hand sides are
single predicates, its tree can be read back from the order of its predicates and
combinators.
-/

namespace ShapeQuery
namespace Condition

/--
Starts from the first predicate and joins the others one by one by the combinators in
order, each to everything before it.
-/
def ofInOrder? : List Predicate → List Combinator → Option Condition
  | [], _ => none
  | p :: rest, ops =>
      some ((ops.zip rest).foldl (fun c step => combine c step.1 (leaf step.2)) (leaf p))

/-- The condition is a single predicate. -/
def isSingle : Condition → Bool
  | leaf _ => true
  | combine _ _ _ => false

/-- The right-hand sides of all joins in a condition. -/
def rightSides : Condition → List Condition
  | leaf _ => []
  | combine left _ right => left.rightSides ++ right :: right.rightSides

/-- All right-hand sides in a condition are single predicates. -/
def LeansLeft (c : Condition) : Prop :=
  ∀ r ∈ c.rightSides, r.isSingle = true

instance (c : Condition) : Decidable c.LeansLeft :=
  inferInstanceAs (Decidable (∀ r ∈ c.rightSides, _))

variable {c d : Condition}

theorem joinAll_eq_foldl
    (c : Condition) (xs : List (Combinator × Condition)) :
    c.joinAll xs = xs.foldl attach c := by
  induction xs generalizing c with
  | nil =>
      rfl
  | cons x xs ih =>
      exact ih _

/-- The left form is what the two views give when they are put together again. -/
theorem ofInOrder?_views
    (c : Condition) :
    ofInOrder? c.predicates c.combinators = some c.leftForm := by
  have hsteps : (c.steps.map Prod.fst).zip (c.steps.map Prod.snd) = c.steps :=
    (List.zip_of_prod rfl rfl).symm
  rw [predicates_eq_first_steps, combinators_eq_steps, ofInOrder?, hsteps, leftForm,
    joinAll_eq_foldl, List.foldl_map]
  rfl

theorem leansLeft_leaf
    (p : Predicate) :
    (leaf p).LeansLeft := by
  intro r hr
  simp [rightSides] at hr

/-- A join leans left iff its left-hand side does and its right-hand side is single. -/
theorem leansLeft_combine_iff
    {left right : Condition} {op : Combinator} :
    (combine left op right).LeansLeft ↔ left.LeansLeft ∧ right.isSingle = true := by
  simp only [LeansLeft, rightSides, List.forall_mem_append, List.forall_mem_cons]
  constructor
  · rintro ⟨hleft, hright, _⟩
    exact ⟨hleft, hright⟩
  · rintro ⟨hleft, hright⟩
    cases right with
    | leaf p =>
        exact ⟨hleft, hright, leansLeft_leaf p⟩
    | combine _ _ _ =>
        cases hright

theorem leansLeft_foldl_attach_iff
    {xs : List (Combinator × Condition)} :
    (xs.foldl attach c).LeansLeft ↔ c.LeansLeft ∧ ∀ x ∈ xs, x.2.isSingle = true := by
  induction xs generalizing c with
  | nil =>
      simp
  | cons x xs ih =>
      rw [List.foldl_cons, ih, attach, leansLeft_combine_iff, List.forall_mem_cons, and_assoc]

theorem leansLeft_leftForm
    (c : Condition) :
    c.leftForm.LeansLeft := by
  rw [leftForm, joinAll_eq_foldl, leansLeft_foldl_attach_iff]
  refine ⟨leansLeft_leaf _, fun x hx => ?_⟩
  obtain ⟨step, _, rfl⟩ := List.mem_map.mp hx
  rfl

theorem LeansLeft.leftForm_eq
    (h : c.LeansLeft) :
    c.leftForm = c := by
  induction c with
  | leaf p =>
      rfl
  | combine left op right ihl _ =>
      obtain ⟨hleft, hright⟩ := leansLeft_combine_iff.mp h
      cases right with
      | leaf p =>
          rw [leftForm_combine, ihl hleft]
          rfl
      | combine _ _ _ =>
          cases hright

theorem leftForm_eq_self_iff :
    c.leftForm = c ↔ c.LeansLeft := by
  constructor
  · intro h
    rw [← h]
    exact c.leansLeft_leftForm
  · exact LeansLeft.leftForm_eq

theorem leftForm_leftForm
    (c : Condition) :
    c.leftForm.leftForm = c.leftForm :=
  c.leansLeft_leftForm.leftForm_eq

/-- Conditions that lean left are told apart by their views. -/
theorem LeansLeft.eq_iff_views
    (hc : c.LeansLeft) (hd : d.LeansLeft) :
    c = d ↔ c.predicates = d.predicates ∧ c.combinators = d.combinators := by
  constructor
  · rintro rfl
    exact ⟨rfl, rfl⟩
  · intro h
    rw [← hc.leftForm_eq, ← hd.leftForm_eq, leftForm_eq_of_views h]

end Condition

namespace Chain

/-- The right-hand sides in the condition that a chain starts with, and those of its joins. -/
def rightSides (c : Chain) : List Condition :=
  c.opening.rightSides ++ c.joins.map Prod.snd

theorem leansLeft_condition_iff
    {c : Chain} :
    c.condition.LeansLeft ↔ ∀ r ∈ c.rightSides, r.isSingle = true := by
  rw [← c.foldl_joins, Condition.leansLeft_foldl_attach_iff, rightSides, List.forall_mem_append,
    List.forall_mem_map]
  rfl

end Chain

namespace Condition

/--
The left form of a condition starts from its first predicate and joins the others one
by one in order.  It has the same text and the same predicates, it is its own left
form, and it is the condition itself iff all right-hand sides in the condition are
single predicates.  So a chain whose right-hand sides are all single predicates is
rebuilt from its predicates and combinators in order, and two such chains give the same
tree iff these are the same.
-/
theorem leftForm_normalizes
    (c : Condition) :
    ofInOrder? c.predicates c.combinators = some c.leftForm ∧
    c.leftForm.render = c.render ∧
    c.leftForm.predicates = c.predicates ∧
    c.leftForm.combinators = c.combinators ∧
    c.leftForm.leftForm = c.leftForm ∧
    (c.leftForm = c ↔ ∀ r ∈ c.rightSides, r.isSingle = true) ∧
    ∀ a b : Chain,
      (∀ r ∈ a.rightSides, r.isSingle = true) →
      (∀ r ∈ b.rightSides, r.isSingle = true) →
      ofInOrder? a.condition.predicates a.condition.combinators = some a.condition ∧
      (a.condition = b.condition ↔
        a.condition.predicates = b.condition.predicates ∧
        a.condition.combinators = b.condition.combinators) := by
  have hviews := (regroups_leftForm c).views_eq
  refine ⟨c.ofInOrder?_views, (regroups_leftForm c).render_eq.symm, hviews.1.symm,
    hviews.2.symm, c.leftForm_leftForm, leftForm_eq_self_iff, fun a b ha hb => ?_⟩
  have hleft : a.condition.LeansLeft := Chain.leansLeft_condition_iff.mpr ha
  have hright : b.condition.LeansLeft := Chain.leansLeft_condition_iff.mpr hb
  refine ⟨?_, hleft.eq_iff_views hright⟩
  rw [ofInOrder?_views, hleft.leftForm_eq]

/-- Two comparisons and a check for presence, one of them handed over as a clause of its own. -/
theorem leftForm_normalizes_chain :
    let likes : Predicate := ⟨"likes", .largerThan, .value "20"⟩
    let rating : Predicate := ⟨"rating", .notEqual, .value "null"⟩
    let genres : Predicate := ⟨"genres", .containsAnyOf, .list ["20", "30"]⟩
    let chain : Chain :=
      .joinChain (.join (.start (leaf likes)) .or (leaf rating)) .and .within (.start (leaf genres))
    (∀ r ∈ chain.rightSides, r.isSingle = true) ∧
    ofInOrder? [likes, rating, genres] [.or, .and] = some chain.condition ∧
    ¬ (combine (leaf likes) .or (combine (leaf rating) .and (leaf genres))).leftForm =
      combine (leaf likes) .or (combine (leaf rating) .and (leaf genres)) := by
  intro likes rating genres chain
  have hchain : ∀ r ∈ chain.rightSides, r.isSingle = true := by
    decide
  have hnested := (leftForm_normalizes
    (combine (leaf likes) .or (combine (leaf rating) .and (leaf genres)))).2.2.2.2.2
  refine ⟨hchain, (hnested.2 chain chain hchain hchain).1, fun h => ?_⟩
  exact absurd (hnested.1.mp h) (by decide)

end Condition
end ShapeQuery
