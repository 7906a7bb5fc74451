import ShapeQuery.FieldPath
import ShapeQuery.WhereClause

/-!
# Queries

A query holds at most one clause of each of seven kinds.  Setting a clause again
replaces it.  The text of a query is the text of the clauses that are set, always
in the order search, fields, exclude, where, offset, limit, sort, each of them a
keyword, a value and the clause terminator.  Nothing that a clause holds is
escaped, the quotes around a search term included.
-/

namespace ShapeQuery

/-- Which end of a sort order comes first. -/
inductive Direction
  | ascending
  | descending
  deriving DecidableEq

namespace Direction

def token : Direction → String
  | ascending => Token.ascending
  | descending => Token.descending

end Direction

/-- A field to sort by, and the direction. -/
structure SortOrder where
  field : String
  direction : Direction
  deriving DecidableEq

/-- Which fields a query selects. -/
inductive Selection
  | all
  | list (text : String)
  deriving DecidableEq

namespace Selection

/-- Every field is selected, and not just a list that reads like it. -/
def isEverything : Selection → Bool
  | all => true
  | list _ => false

def text : Selection → String
  | all => Token.wildcard
  | list text => text

end Selection

/-- A clause that is set. -/
inductive Clause
  | search (term : String)
  | fields (selection : Selection)
  | exclude (text : String)
  | filter (text : String)
  | offset (n : UInt32)
  | limit (n : UInt32)
  | sort (order : SortOrder)
  deriving DecidableEq

namespace Clause

/-- The word that a clause begins with. -/
def keyword : Clause → String
  | search _ => Token.search
  | fields _ => Token.fields
  | exclude _ => Token.exclude
  | filter _ => Token.filter
  | offset _ => Token.offset
  | limit _ => Token.limit
  | sort _ => Token.sort

/-- The text between the keyword and the terminator. -/
def value : Clause → String
  | search term => "\"" ++ term ++ "\""
  | fields selection => selection.text
  | exclude text => text
  | filter text => text
  | offset n => n.toNat.repr
  | limit n => n.toNat.repr
  | sort order => order.field ++ " " ++ order.direction.token

def render (c : Clause) : String :=
  c.keyword ++ " " ++ c.value ++ Token.clauseTerminator

end Clause

/-- A query under construction: a slot for every kind of clause. -/
structure Query where
  searchTerm : Option String
  selection : Option Selection
  excluded : Option String
  condition : Option String
  skipped : Option UInt32
  atMost : Option UInt32
  order : Option SortOrder
  deriving DecidableEq

/-- Writes fields one after another, a separator before each but the first. -/
def fieldList : List String → String
  | [] => ""
  | [field] => field
  | field :: next :: rest => field ++ Token.fieldSeparator ++ fieldList (next :: rest)

theorem fieldList_eq_intercalate
    (fields : List String) :
    fieldList fields = Token.fieldSeparator.intercalate fields := by
  induction fields with
  | nil =>
      simp [fieldList]
  | cons field rest ih =>
      cases rest with
      | nil =>
          simp [fieldList]
      | cons next rest =>
          rw [fieldList, ih, String.intercalate_cons_cons]

namespace Query

def empty : Query :=
  ⟨none, none, none, none, none, none, none⟩

def search (q : Query) (term : String) : Query :=
  { q with searchTerm := some term }

def select (q : Query) (fields : String) : Query :=
  { q with selection := some (.list fields) }

def selectFields (q : Query) (fields : List String) : Query :=
  q.select (fieldList fields)

def selectAll (q : Query) : Query :=
  { q with selection := some .all }

def exclude (q : Query) (fields : String) : Query :=
  { q with excluded := some fields }

def excludeFields (q : Query) (fields : List String) : Query :=
  q.exclude (fieldList fields)

/-- Keeps the results that meet a finished clause. -/
def filterClause (q : Query) (clause : WhereClause) : Query :=
  { q with condition := some clause.render }

/-- Keeps the results that meet a condition. -/
def filterCondition (q : Query) (c : Condition) : Query :=
  q.filterClause ⟨c⟩

/-- Keeps the results that meet a clause built on the spot. -/
def filter (q : Query) (build : ClauseStart → WhereClause) : Query :=
  q.filterClause (build {})

def offset (q : Query) (n : UInt32) : Query :=
  { q with skipped := some n }

def limit (q : Query) (n : UInt32) : Query :=
  { q with atMost := some n }

def sort (q : Query) (field : String) (direction : Direction) : Query :=
  { q with order := some ⟨field, direction⟩ }

def sortAscending (q : Query) (field : String) : Query :=
  q.sort field .ascending

def sortDescending (q : Query) (field : String) : Query :=
  q.sort field .descending

/-- Selects the field list of a shape, resolved through a registry. -/
def selectShape {ι : Type} [DecidableEq ι]
    (q : Query) (t : ShapeTable ι) (r : Registry ι) (i : ι) :
    Except ShapeError Query × Registry ι :=
  match r.fieldList t i with
  | (.error e, registry) => (.error e, registry)
  | (.ok fields, registry) => (.ok (q.select fields), registry)

/-- The clauses that are set, in the order of the text. -/
def clauses (q : Query) : List Clause :=
  [ q.searchTerm.map .search,
    q.selection.map .fields,
    q.excluded.map .exclude,
    q.condition.map .filter,
    q.skipped.map .offset,
    q.atMost.map .limit,
    q.order.map .sort ].flatMap Option.toList

def render (q : Query) : String :=
  String.join (q.clauses.map Clause.render)

end Query
end ShapeQuery
