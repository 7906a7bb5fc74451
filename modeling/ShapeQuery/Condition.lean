import ShapeQuery.Token

/-!
# Conditions

A condition is a binary tree with predicates at its leaves and combinators at
its inner nodes.

**Operators.**  An operator has a comparison token and a pair of list delimiters.  Five of
the eleven operators are *list operators*: they all print the token of equality and
are told apart by their delimiters alone.  The delimiters are defined for every
operator, since a predicate may carry a list whatever its operator is.

**Predicates.**  A predicate compares one field with one operand.  Field names and operand
texts are printed as they are: the query language knows no escapes.  An operand is a
list or a single value on its own account, whatever the operator; the named
comparisons of `ShapeQuery.FieldRef` pair them properly.

**Text.**  The text of a tree is read off from left to right without any
brackets, so the grouping of the tree leaves no trace in it.

**Views.**  `predicates` and `combinators` list the leaves and the inner nodes in
that same order; a tree has one predicate more than it has combinators.
-/

namespace ShapeQuery

/-- How a field is compared with an operand. -/
inductive Operator
  | equal
  | notEqual
  | largerThan
  | largerThanOrEqual
  | smallerThan
  | smallerThanOrEqual
  | containsAllOf
  | doesNotContainAllOf
  | containsAnyOf
  | doesNotContainAnyOf
  | containsExclusivelyAllOf
  deriving DecidableEq

namespace Operator

/-- The operators that compare with a list of values. -/
def isList : Operator → Bool
  | containsAllOf => true
  | doesNotContainAllOf => true
  | containsAnyOf => true
  | doesNotContainAnyOf => true
  | containsExclusivelyAllOf => true
  | _ => false

/-- The text between the field and the operand. -/
def token : Operator → String
  | notEqual => "!="
  | largerThan => ">"
  | largerThanOrEqual => ">="
  | smallerThan => "<"
  | smallerThanOrEqual => "<="
  | _ => "="

/-- The text before and after the values of a list operand. -/
def delimiters : Operator → String × String
  | containsAllOf => (Token.allOfOpen, Token.allOfClose)
  | doesNotContainAllOf => (Token.notAllOfOpen, Token.allOfClose)
  | doesNotContainAnyOf => (Token.notAnyOfOpen, Token.anyOfClose)
  | containsExclusivelyAllOf => (Token.exactlyOpen, Token.exactlyClose)
  | _ => (Token.anyOfOpen, Token.anyOfClose)

end Operator

/-- How two conditions are joined. -/
inductive Combinator
  | and
  | or
  deriving DecidableEq

namespace Combinator

/-- The text between the two joined conditions. -/
def token : Combinator → String
  | and => "&"
  | or => "|"

end Combinator

/-- What a field is compared with, already as text. -/
inductive Operand
  | value (text : String)
  | list (texts : List String)
  deriving DecidableEq

namespace Operand

/-- The operands that are lists. -/
def isList : Operand → Bool
  | value _ => false
  | list _ => true

/-- A single value stands alone; a list stands between the operator's delimiters. -/
def render (op : Operator) : Operand → String
  | value text => text
  | list texts =>
      op.delimiters.1 ++ Token.valueSeparator.intercalate texts ++ op.delimiters.2

end Operand

/-- One comparison of a field with an operand. -/
structure Predicate where
  field : String
  operator : Operator
  operand : Operand
  deriving DecidableEq

namespace Predicate

/-- A list stands with a list operator, and a single value with any other. -/
def WellPaired (p : Predicate) : Prop :=
  p.operand.isList = p.operator.isList

instance (p : Predicate) : Decidable p.WellPaired :=
  inferInstanceAs (Decidable (_ = _))

/-- The field, the comparison token and the operand, a space between each two. -/
def render (p : Predicate) : String :=
  p.field ++ " " ++ p.operator.token ++ " " ++ p.operand.render p.operator

end Predicate

/-- A predicate, or two conditions joined by a combinator. -/
inductive Condition
  | leaf (predicate : Predicate)
  | combine (left : Condition) (op : Combinator) (right : Condition)
  deriving DecidableEq

namespace Condition

def and (left right : Condition) : Condition :=
  combine left .and right

def or (left right : Condition) : Condition :=
  combine left .or right

instance : AndOp Condition := ⟨Condition.and⟩

instance : OrOp Condition := ⟨Condition.or⟩

/-- Joins conditions one after another, each to everything before it. -/
def joinAll : Condition → List (Combinator × Condition) → Condition
  | c, [] => c
  | c, (op, right) :: rest => joinAll (combine c op right) rest

def render : Condition → String
  | leaf p => p.render
  | combine left op right =>
      left.render ++ " " ++ op.token ++ " " ++ right.render

/-- The predicates of a condition in the order of its text. -/
def predicates : Condition → List Predicate
  | leaf p => [p]
  | combine left _ right => left.predicates ++ right.predicates

/-- The combinators of a condition in the order of its text. -/
def combinators : Condition → List Combinator
  | leaf _ => []
  | combine left op right => left.combinators ++ op :: right.combinators

theorem length_predicates
    (c : Condition) :
    c.predicates.length = c.combinators.length + 1 := by
  induction c with
  | leaf p =>
      rfl
  | combine left op right ihl ihr =>
      simp [predicates, combinators, ihl, ihr]
      omega

theorem joinAll_append
    (c : Condition) (xs ys : List (Combinator × Condition)) :
    c.joinAll (xs ++ ys) = (c.joinAll xs).joinAll ys := by
  induction xs generalizing c with
  | nil =>
      rfl
  | cons x xs ih =>
      simp [joinAll, ih]

end Condition

end ShapeQuery
