import ShapeQuery.Game.Shapes
import ShapeQuery.Query
import ShapeQuery.Release.Windows

/-!
# Requests to a game catalogue

Six kinds of requests for games.  Each of them selects the whole field list of a
game, and each but the search filters the games; four filter by release date, and
these also sort the games, unlike a request by identifiers.

A `GameCatalog` writes requests.  It keeps the field list from the first request
on.  The registry it resolves shapes with may be shared with anything else, over any
table that the shapes of the catalogue are part of.
-/

namespace ShapeQuery

/-- What games are asked for. -/
inductive GameRequest
  | search (term : String)
  | popular
  | recentlyReleased
  | comingSoon
  | mostAnticipated
  | byIds (ids : List Value)
  deriving DecidableEq

namespace GameRequest

/-- Completes a query for games with the clauses of a request. -/
def complete (b : ReleaseBounds) (offset limit : UInt32) (q : Query) : GameRequest → Query
  | search term =>
      ((q.search term).offset offset).limit limit
  | popular =>
      (((q.filter fun w =>
        (w.isNotNull GameField.usersRating).and
          (GameField.releaseDate.isLargerThan (.integer b.popularFrom))).offset
            offset).limit limit).sortDescending GameField.totalRating.name
  | recentlyReleased =>
      (((q.filter fun w =>
        (w.isLargerThan GameField.releaseDate (.integer b.recentFrom)).and
          (GameField.releaseDate.isSmallerThan (.integer b.recentUntil))).offset
            offset).limit limit).sortDescending GameField.releaseDate.name
  | comingSoon =>
      (((q.filter fun w =>
        w.isLargerThan GameField.releaseDate (.integer b.comingFrom)).offset
          offset).limit limit).sortAscending GameField.releaseDate.name
  | mostAnticipated =>
      (((q.filter fun w =>
        (w.isLargerThan GameField.releaseDate (.integer b.anticipatedFrom)).and
          GameField.hypeCount.isNotNull).offset
            offset).limit limit).sortDescending GameField.hypeCount.name
  | byIds ids =>
      ((q.filter fun w => w.containsAnyOf GameField.id ids).offset offset).limit limit

end GameRequest

/-- A writer of requests for games. -/
structure GameCatalog where
  bounds : ReleaseBounds
  /-- The field list of a game, once it has been asked for. -/
  fieldList : Option String
  deriving DecidableEq

/-- A request together with the part of the results to send. -/
structure GameCall where
  request : GameRequest
  offset : UInt32
  limit : UInt32
  deriving DecidableEq

namespace GameCatalog

/-- A catalogue that nothing was asked of yet. -/
def ofBounds (b : ReleaseBounds) : GameCatalog :=
  ⟨b, none⟩

variable {ι : Type} [DecidableEq ι]

/-- The field list of a game, written at most once.  A failure is not kept. -/
def fields (t : GameTable ι) (c : GameCatalog) (r : Registry ι) :
    Except ShapeError String × GameCatalog × Registry ι :=
  match c.fieldList with
  | some text => (.ok text, c, r)
  | none =>
    match r.fieldList t.toShapeTable (t.place .game) with
    | (.error e, registry) => (.error e, c, registry)
    | (.ok text, registry) => (.ok text, { c with fieldList := some text }, registry)

/-- The text of a request. -/
def ask (t : GameTable ι) (c : GameCatalog) (r : Registry ι) (call : GameCall) :
    Except ShapeError String × GameCatalog × Registry ι :=
  match c.fields t r with
  | (.error e, rest) => (.error e, rest)
  | (.ok fields, rest) =>
      let query := call.request.complete c.bounds call.offset call.limit
        (Query.empty.select fields)
      (.ok query.render, rest)

/-- The texts of requests made one after another. -/
def askAll (t : GameTable ι) (c : GameCatalog) (r : Registry ι) :
    List GameCall → List (Except ShapeError String)
  | [] => []
  | call :: rest =>
    match c.ask t r call with
    | (text, c, r) => text :: askAll t c r rest

end GameCatalog
end ShapeQuery
