import ShapeQuery.FieldRef

/-!
# Where clauses

A where clause is begun with one comparison, or with a finished condition, and
then grows to the right only.  What is joined to it may be a condition, another
clause, or a function that builds a clause from a fresh start; the whole of it
is joined to the whole of the clause so far.

**Chains.**  A chain records how a where clause is built: a first condition and then joins,
the right-hand side of each being a condition or a chain of its own.  A chain on
the right can be handed over as a finished clause, as a function that builds it,
or through the joins that take only such functions.  `Chain.clause` runs a chain, and
`Chain.trace` lists the text of the clause after its start and after each of its own joins.
-/

namespace ShapeQuery

/-- A clause under construction, never empty. -/
structure WhereClause where
  condition : Condition
  deriving DecidableEq

/-- The point from which a clause is begun. -/
structure ClauseStart where
  deriving DecidableEq

namespace ClauseStart

/-- Begins a clause with a finished condition. -/
def condition (_ : ClauseStart) (c : Condition) : WhereClause :=
  ⟨c⟩

def isTrue (_ : ClauseStart) (f : FieldRef) : WhereClause :=
  ⟨f.isTrue⟩

def isFalse (_ : ClauseStart) (f : FieldRef) : WhereClause :=
  ⟨f.isFalse⟩

def isNull (_ : ClauseStart) (f : FieldRef) : WhereClause :=
  ⟨f.isNull⟩

def isNotNull (_ : ClauseStart) (f : FieldRef) : WhereClause :=
  ⟨f.isNotNull⟩

def isEqual (_ : ClauseStart) (f : FieldRef) (value : Value) : WhereClause :=
  ⟨f.isEqual value⟩

def isNotEqual (_ : ClauseStart) (f : FieldRef) (value : Value) : WhereClause :=
  ⟨f.isNotEqual value⟩

def isLargerThan (_ : ClauseStart) (f : FieldRef) (value : Value) : WhereClause :=
  ⟨f.isLargerThan value⟩

def isLargerThanOrEqualTo (_ : ClauseStart) (f : FieldRef) (value : Value) : WhereClause :=
  ⟨f.isLargerThanOrEqualTo value⟩

def isSmallerThan (_ : ClauseStart) (f : FieldRef) (value : Value) : WhereClause :=
  ⟨f.isSmallerThan value⟩

def isSmallerThanOrEqualTo (_ : ClauseStart) (f : FieldRef) (value : Value) : WhereClause :=
  ⟨f.isSmallerThanOrEqualTo value⟩

def containsAllOf (_ : ClauseStart) (f : FieldRef) (values : List Value) : WhereClause :=
  ⟨f.containsAllOf values⟩

def doesNotContainAllOf (_ : ClauseStart) (f : FieldRef) (values : List Value) : WhereClause :=
  ⟨f.doesNotContainAllOf values⟩

def containsAnyOf (_ : ClauseStart) (f : FieldRef) (values : List Value) : WhereClause :=
  ⟨f.containsAnyOf values⟩

def doesNotContainAnyOf (_ : ClauseStart) (f : FieldRef) (values : List Value) : WhereClause :=
  ⟨f.doesNotContainAnyOf values⟩

def containsExclusivelyAllOf (_ : ClauseStart) (f : FieldRef) (values : List Value) : WhereClause :=
  ⟨f.containsExclusivelyAllOf values⟩

end ClauseStart

/-- What can be joined to a clause. -/
class ToCondition (α : Type) where
  toCondition : α → Condition

export ToCondition (toCondition)

instance : ToCondition Condition := ⟨id⟩

instance : ToCondition WhereClause := ⟨WhereClause.condition⟩

instance : ToCondition (ClauseStart → WhereClause) := ⟨fun build => (build {}).condition⟩

namespace WhereClause

variable {α : Type} [ToCondition α]

def and (w : WhereClause) (right : α) : WhereClause :=
  ⟨w.condition.and (toCondition right)⟩

def or (w : WhereClause) (right : α) : WhereClause :=
  ⟨w.condition.or (toCondition right)⟩

/-- Both the clause so far and a clause built on the spot hold. -/
def andWith (w : WhereClause) (build : ClauseStart → WhereClause) : WhereClause :=
  w.and build

/-- The clause so far or a clause built on the spot holds. -/
def orWith (w : WhereClause) (build : ClauseStart → WhereClause) : WhereClause :=
  w.or build

/-- The text of a clause, without its keyword. -/
def render (w : WhereClause) : String :=
  w.condition.render

end WhereClause

/-- How a chain on the right-hand side of a join is handed over. -/
inductive Handover
  | clause
  | closure
  | within
  deriving DecidableEq

/-- The construction of a where clause. -/
inductive Chain
  | start (c : Condition)
  | join (before : Chain) (op : Combinator) (right : Condition)
  | joinChain (before : Chain) (op : Combinator) (handover : Handover) (right : Chain)
  deriving DecidableEq

namespace Chain

/-- The clause that a chain builds. -/
def clause : Chain → WhereClause
  | start c => ({} : ClauseStart).condition c
  | join before .and right => before.clause.and right
  | join before .or right => before.clause.or right
  | joinChain before .and .clause right => before.clause.and right.clause
  | joinChain before .or .clause right => before.clause.or right.clause
  | joinChain before .and .closure right =>
      before.clause.and (fun _ : ClauseStart => right.clause)
  | joinChain before .or .closure right =>
      before.clause.or (fun _ : ClauseStart => right.clause)
  | joinChain before .and .within right => before.clause.andWith fun _ => right.clause
  | joinChain before .or .within right => before.clause.orWith fun _ => right.clause

/-- The condition that a chain builds. -/
def condition (c : Chain) : Condition :=
  c.clause.condition

/-- The text of a chain and of each chain it was extended from, the earliest first. -/
def trace : Chain → List String
  | start c => [c.render]
  | c@(join before _ _) => before.trace ++ [c.clause.render]
  | c@(joinChain before _ _ _) => before.trace ++ [c.clause.render]

end Chain

end ShapeQuery
