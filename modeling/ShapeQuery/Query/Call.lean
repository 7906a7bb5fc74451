import ShapeQuery.Query
import ShapeQuery.WhereClause

/-!
# Calls on a query

The calls that build a query, as data.  A call sets one clause.  Only the calls
that select a shape can fail, and one that fails leaves the query as it was.

A shape can be selected through the registry that a whole session shares, or
through a registry that the call brings along.
-/

namespace ShapeQuery

/-- One call that sets a clause of a query. -/
inductive QueryCall (ι : Type)
  | search (term : String)
  | select (fields : String)
  | selectFields (fields : List String)
  | selectAll
  | selectShape (i : ι)
  | selectShapeWith (r : Registry ι) (i : ι)
  | exclude (fields : String)
  | excludeFields (fields : List String)
  | filter (chain : Chain)
  | filterCondition (c : Condition)
  | offset (n : UInt32)
  | limit (n : UInt32)
  | sort (field : String) (direction : Direction)
  | sortAscending (field : String)
  | sortDescending (field : String)

/-- A query under construction and the registry its calls share. -/
structure QuerySession (ι : Type) where
  query : Query
  registry : Registry ι

namespace QuerySession

variable {ι : Type} [DecidableEq ι]

def empty : QuerySession ι :=
  ⟨.empty, .empty⟩

def withQuery (s : QuerySession ι) (q : Query) : Option ShapeError × QuerySession ι :=
  (none, { s with query := q })

/-- Makes one call, and tells how it failed. -/
def call (t : ShapeTable ι) (s : QuerySession ι) :
    QueryCall ι → Option ShapeError × QuerySession ι
  | .search term => s.withQuery (s.query.search term)
  | .select fields => s.withQuery (s.query.select fields)
  | .selectFields fields => s.withQuery (s.query.selectFields fields)
  | .selectAll => s.withQuery s.query.selectAll
  | .selectShape i =>
    match s.query.selectShape t s.registry i with
    | (.error e, registry) => (some e, { s with registry := registry })
    | (.ok query, registry) => (none, ⟨query, registry⟩)
  | .selectShapeWith r i =>
    match (s.query.selectShape t r i).1 with
    | .error e => (some e, s)
    | .ok query => s.withQuery query
  | .exclude fields => s.withQuery (s.query.exclude fields)
  | .excludeFields fields => s.withQuery (s.query.excludeFields fields)
  | .filter chain => s.withQuery (s.query.filter fun _ => chain.clause)
  | .filterCondition c => s.withQuery (s.query.filterCondition c)
  | .offset n => s.withQuery (s.query.offset n)
  | .limit n => s.withQuery (s.query.limit n)
  | .sort field direction => s.withQuery (s.query.sort field direction)
  | .sortAscending field => s.withQuery (s.query.sortAscending field)
  | .sortDescending field => s.withQuery (s.query.sortDescending field)

/-- Makes calls one after another, and gives the outcome of each of them. -/
def trace (t : ShapeTable ι) (s : QuerySession ι) :
    List (QueryCall ι) → List (Option ShapeError × QuerySession ι)
  | [] => []
  | c :: rest =>
      let done := s.call t c
      done :: trace t done.2 rest

/-- The session after calls made one after another. -/
def run (t : ShapeTable ι) (s : QuerySession ι) (calls : List (QueryCall ι)) :
    QuerySession ι :=
  calls.foldl (fun s c => (s.call t c).2) s

end QuerySession
end ShapeQuery
