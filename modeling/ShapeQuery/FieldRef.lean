import ShapeQuery.Condition
import ShapeQuery.Decimal

/-!
# Fields and their comparisons

A `FieldRef` names a field of the queried records.  Its fifteen comparisons are
the leaves of conditions: four that need no operand, six that take a value and
five that take a list of values.  Each of them pairs its operator with an operand
of the right kind.

A text or a slice of a text names a field (`NamesField`) and is compared in the same fifteen
ways.

The text of a value is taken as it is.  A floating-point value is given by the bits of its
word.
-/

namespace ShapeQuery

/-- A value of an operand. -/
inductive Value
  | text (s : String)
  | character (c : Char)
  | truth (b : Bool)
  | integer (n : Int)
  | double (bits : UInt64)
  | single (bits : UInt32)
  /-- An eight-byte value that is only borrowed, and written without an exponent. -/
  | plainDouble (bits : UInt64)
  deriving DecidableEq

namespace Value

def render : Value → String
  | text s => s
  | character c => c.toString
  | truth true => Token.trueWord
  | truth false => Token.falseWord
  | integer n => n.repr
  | double bits =>
      Decimal.Layout.double.render (.ofBits .double bits.toNat)
  | single bits =>
      Decimal.Layout.single.render (.ofBits .single bits.toNat)
  | plainDouble bits =>
      Decimal.Layout.plain.render (.ofBits .double bits.toNat)

end Value

/-- A field of the queried records, by its name or its dotted path. -/
structure FieldRef where
  name : String
  deriving DecidableEq

instance : Coe String FieldRef := ⟨FieldRef.mk⟩

instance : Coe String.Slice FieldRef := ⟨fun name => ⟨name.copy⟩⟩

namespace FieldRef

/-- A leaf that compares with one text. -/
def withValue (f : FieldRef) (op : Operator) (text : String) : Condition :=
  .leaf ⟨f.name, op, .value text⟩

/-- A leaf that compares with a list of values. -/
def withList (f : FieldRef) (op : Operator) (values : List Value) : Condition :=
  .leaf ⟨f.name, op, .list (values.map Value.render)⟩

def isTrue (f : FieldRef) : Condition :=
  f.withValue .equal Token.trueWord

def isFalse (f : FieldRef) : Condition :=
  f.withValue .equal Token.falseWord

def isNull (f : FieldRef) : Condition :=
  f.withValue .equal Token.nullWord

def isNotNull (f : FieldRef) : Condition :=
  f.withValue .notEqual Token.nullWord

def isEqual (f : FieldRef) (value : Value) : Condition :=
  f.withValue .equal value.render

def isNotEqual (f : FieldRef) (value : Value) : Condition :=
  f.withValue .notEqual value.render

def isLargerThan (f : FieldRef) (value : Value) : Condition :=
  f.withValue .largerThan value.render

def isLargerThanOrEqualTo (f : FieldRef) (value : Value) : Condition :=
  f.withValue .largerThanOrEqual value.render

def isSmallerThan (f : FieldRef) (value : Value) : Condition :=
  f.withValue .smallerThan value.render

def isSmallerThanOrEqualTo (f : FieldRef) (value : Value) : Condition :=
  f.withValue .smallerThanOrEqual value.render

/-- The field holds every one of the values. -/
def containsAllOf (f : FieldRef) (values : List Value) : Condition :=
  f.withList .containsAllOf values

/-- The field lacks one of the values. -/
def doesNotContainAllOf (f : FieldRef) (values : List Value) : Condition :=
  f.withList .doesNotContainAllOf values

/-- The field holds one of the values. -/
def containsAnyOf (f : FieldRef) (values : List Value) : Condition :=
  f.withList .containsAnyOf values

/-- The field holds none of the values. -/
def doesNotContainAnyOf (f : FieldRef) (values : List Value) : Condition :=
  f.withList .doesNotContainAnyOf values

/-- The field holds exactly the values. -/
def containsExclusivelyAllOf (f : FieldRef) (values : List Value) : Condition :=
  f.withList .containsExclusivelyAllOf values

end FieldRef

/-- What names a field.  It has the comparisons of the field that it names. -/
class NamesField (α : Type) where
  field : α → FieldRef

instance : NamesField String := ⟨fun name => name⟩

instance : NamesField String.Slice := ⟨fun name => name⟩

namespace NamesField

theorem field_slice
    (name : String.Slice) :
    field name = ⟨name.copy⟩ :=
  rfl

variable {α : Type} [NamesField α]

def isTrue (name : α) : Condition :=
  (field name).isTrue

def isFalse (name : α) : Condition :=
  (field name).isFalse

def isNull (name : α) : Condition :=
  (field name).isNull

def isNotNull (name : α) : Condition :=
  (field name).isNotNull

def isEqual (name : α) (value : Value) : Condition :=
  (field name).isEqual value

def isNotEqual (name : α) (value : Value) : Condition :=
  (field name).isNotEqual value

def isLargerThan (name : α) (value : Value) : Condition :=
  (field name).isLargerThan value

def isLargerThanOrEqualTo (name : α) (value : Value) : Condition :=
  (field name).isLargerThanOrEqualTo value

def isSmallerThan (name : α) (value : Value) : Condition :=
  (field name).isSmallerThan value

def isSmallerThanOrEqualTo (name : α) (value : Value) : Condition :=
  (field name).isSmallerThanOrEqualTo value

def containsAllOf (name : α) (values : List Value) : Condition :=
  (field name).containsAllOf values

def doesNotContainAllOf (name : α) (values : List Value) : Condition :=
  (field name).doesNotContainAllOf values

def containsAnyOf (name : α) (values : List Value) : Condition :=
  (field name).containsAnyOf values

def doesNotContainAnyOf (name : α) (values : List Value) : Condition :=
  (field name).doesNotContainAnyOf values

def containsExclusivelyAllOf (name : α) (values : List Value) : Condition :=
  (field name).containsExclusivelyAllOf values

end NamesField

end ShapeQuery
