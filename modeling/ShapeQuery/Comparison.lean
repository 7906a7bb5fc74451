import ShapeQuery.WhereClause

/-!
# Named comparisons

The fifteen comparisons as data, so that one can be chosen, stored and run later,
and the four ways in which a program can enter one: on a slice of a text, on a
text, on a field, or as the beginning of a clause.
-/

namespace ShapeQuery

/-- A comparison together with what it compares with. -/
inductive Comparison
  | isTrue
  | isFalse
  | isNull
  | isNotNull
  | isEqual (value : Value)
  | isNotEqual (value : Value)
  | isLargerThan (value : Value)
  | isLargerThanOrEqualTo (value : Value)
  | isSmallerThan (value : Value)
  | isSmallerThanOrEqualTo (value : Value)
  | containsAllOf (values : List Value)
  | doesNotContainAllOf (values : List Value)
  | containsAnyOf (values : List Value)
  | doesNotContainAnyOf (values : List Value)
  | containsExclusivelyAllOf (values : List Value)
  deriving DecidableEq

namespace Comparison

/-- The comparison made on a field. -/
def onField (f : FieldRef) : Comparison → Condition
  | isTrue => f.isTrue
  | isFalse => f.isFalse
  | isNull => f.isNull
  | isNotNull => f.isNotNull
  | isEqual v => f.isEqual v
  | isNotEqual v => f.isNotEqual v
  | isLargerThan v => f.isLargerThan v
  | isLargerThanOrEqualTo v => f.isLargerThanOrEqualTo v
  | isSmallerThan v => f.isSmallerThan v
  | isSmallerThanOrEqualTo v => f.isSmallerThanOrEqualTo v
  | containsAllOf vs => f.containsAllOf vs
  | doesNotContainAllOf vs => f.doesNotContainAllOf vs
  | containsAnyOf vs => f.containsAnyOf vs
  | doesNotContainAnyOf vs => f.doesNotContainAnyOf vs
  | containsExclusivelyAllOf vs => f.containsExclusivelyAllOf vs

/-- The comparison made on what names a field. -/
def onName {α : Type} [NamesField α] (name : α) : Comparison → Condition
  | isTrue => NamesField.isTrue name
  | isFalse => NamesField.isFalse name
  | isNull => NamesField.isNull name
  | isNotNull => NamesField.isNotNull name
  | isEqual v => NamesField.isEqual name v
  | isNotEqual v => NamesField.isNotEqual name v
  | isLargerThan v => NamesField.isLargerThan name v
  | isLargerThanOrEqualTo v => NamesField.isLargerThanOrEqualTo name v
  | isSmallerThan v => NamesField.isSmallerThan name v
  | isSmallerThanOrEqualTo v => NamesField.isSmallerThanOrEqualTo name v
  | containsAllOf vs => NamesField.containsAllOf name vs
  | doesNotContainAllOf vs => NamesField.doesNotContainAllOf name vs
  | containsAnyOf vs => NamesField.containsAnyOf name vs
  | doesNotContainAnyOf vs => NamesField.doesNotContainAnyOf name vs
  | containsExclusivelyAllOf vs => NamesField.containsExclusivelyAllOf name vs

/-- The comparison made as the beginning of a clause. -/
def begin (start : ClauseStart) (f : FieldRef) : Comparison → WhereClause
  | isTrue => start.isTrue f
  | isFalse => start.isFalse f
  | isNull => start.isNull f
  | isNotNull => start.isNotNull f
  | isEqual v => start.isEqual f v
  | isNotEqual v => start.isNotEqual f v
  | isLargerThan v => start.isLargerThan f v
  | isLargerThanOrEqualTo v => start.isLargerThanOrEqualTo f v
  | isSmallerThan v => start.isSmallerThan f v
  | isSmallerThanOrEqualTo v => start.isSmallerThanOrEqualTo f v
  | containsAllOf vs => start.containsAllOf f vs
  | doesNotContainAllOf vs => start.doesNotContainAllOf f vs
  | containsAnyOf vs => start.containsAnyOf f vs
  | doesNotContainAnyOf vs => start.doesNotContainAnyOf f vs
  | containsExclusivelyAllOf vs => start.containsExclusivelyAllOf f vs

/-- The ways to enter a comparison. -/
inductive Entry
  | slice
  | text
  | field
  | clause
  deriving DecidableEq

/-- The comparison on the named field, entered in the given way. -/
def enter (name : String) (c : Comparison) : Entry → Condition
  | .slice => c.onName name.toSlice
  | .text => c.onName name
  | .field => c.onField ⟨name⟩
  | .clause => (c.begin {} ⟨name⟩).condition

end Comparison
end ShapeQuery
