import ShapeQuery.FieldRef
import ShapeQuery.Shape

/-!
# Shapes of a game catalogue

A game and its cover image.  What else belongs to a game is fetched as lists of
identifiers and therefore declared as collections of scalars.

Programs have these shapes among their own (`GameTable`), which may nest a game.
-/

namespace ShapeQuery

/-- The shapes of the game catalogue. -/
inductive GameShape
  | game
  | image
  deriving DecidableEq

namespace GameField

def id : FieldRef := ⟨"id"⟩
def followerCount : FieldRef := ⟨"follows"⟩
def hypeCount : FieldRef := ⟨"hypes"⟩
def releaseDate : FieldRef := ⟨"first_release_date"⟩
def criticsRating : FieldRef := ⟨"aggregated_rating"⟩
def usersRating : FieldRef := ⟨"rating"⟩
def totalRating : FieldRef := ⟨"total_rating"⟩
def name : FieldRef := ⟨"name"⟩
def summary : FieldRef := ⟨"summary"⟩
def storyline : FieldRef := ⟨"storyline"⟩
def category : FieldRef := ⟨"category"⟩
def cover : FieldRef := ⟨"cover"⟩
def releaseDates : FieldRef := ⟨"release_dates"⟩
def ageRatings : FieldRef := ⟨"age_ratings"⟩
def videos : FieldRef := ⟨"videos"⟩
def artworks : FieldRef := ⟨"artworks"⟩
def screenshots : FieldRef := ⟨"screenshots"⟩
def genres : FieldRef := ⟨"genres"⟩
def platforms : FieldRef := ⟨"platforms"⟩
def playerPerspectives : FieldRef := ⟨"player_perspectives"⟩
def themes : FieldRef := ⟨"themes"⟩
def modes : FieldRef := ⟨"game_modes"⟩
def keywords : FieldRef := ⟨"keywords"⟩
def involvedCompanies : FieldRef := ⟨"involved_companies"⟩
def websites : FieldRef := ⟨"websites"⟩
def similarGames : FieldRef := ⟨"similar_games"⟩

end GameField

namespace GameShape

/-- A game, with its cover nested in it. -/
def gameShape : Shape GameShape where
  name := "Game"
  fields :=
    [ ⟨GameField.id.name, .scalar⟩,
      ⟨GameField.followerCount.name, .scalar⟩,
      ⟨GameField.hypeCount.name, .scalar⟩,
      ⟨GameField.releaseDate.name, .scalar⟩,
      ⟨GameField.criticsRating.name, .scalar⟩,
      ⟨GameField.usersRating.name, .scalar⟩,
      ⟨GameField.totalRating.name, .scalar⟩,
      ⟨GameField.name.name, .scalar⟩,
      ⟨GameField.summary.name, .scalar⟩,
      ⟨GameField.storyline.name, .scalar⟩,
      ⟨GameField.category.name, .scalar⟩,
      ⟨GameField.cover.name, .nested image⟩,
      ⟨GameField.releaseDates.name, .scalarCollection⟩,
      ⟨GameField.ageRatings.name, .scalarCollection⟩,
      ⟨GameField.videos.name, .scalarCollection⟩,
      ⟨GameField.artworks.name, .scalarCollection⟩,
      ⟨GameField.screenshots.name, .scalarCollection⟩,
      ⟨GameField.genres.name, .scalarCollection⟩,
      ⟨GameField.platforms.name, .scalarCollection⟩,
      ⟨GameField.playerPerspectives.name, .scalarCollection⟩,
      ⟨GameField.themes.name, .scalarCollection⟩,
      ⟨GameField.modes.name, .scalarCollection⟩,
      ⟨GameField.keywords.name, .scalarCollection⟩,
      ⟨GameField.involvedCompanies.name, .scalarCollection⟩,
      ⟨GameField.websites.name, .scalarCollection⟩,
      ⟨GameField.similarGames.name, .scalarCollection⟩ ]

/-- An image by its identifier and its size. -/
def imageShape : Shape GameShape where
  name := "Image"
  fields :=
    [ ⟨"id", .scalar⟩, ⟨"image_id", .scalar⟩, ⟨"width", .scalar⟩, ⟨"height", .scalar⟩ ]

/-- The shapes of the game catalogue by their identities. -/
def table : ShapeTable GameShape where
  shape
    | game => gameShape
    | image => imageShape
  ids := [game, image]
  mem_ids i := by cases i <;> simp

end GameShape

/-- A table of shapes with those of the game catalogue among them. -/
structure GameTable (ι : Type) extends ShapeTable ι where
  place : GameShape → ι
  places : toShapeTable.Places GameShape.table place

namespace GameTable

variable {κ : Type}

/-- The game catalogue beside the shapes of a table that do not refer to it. -/
def beside (others : ShapeTable κ) : GameTable (κ ⊕ GameShape) where
  toShapeTable := others.sum GameShape.table
  place := .inr
  places := others.places_sum_inr GameShape.table

/-- Further shapes, which may refer to the game catalogue and to one another. -/
def extend {n : Nat} (t : GameTable κ) (own : Vector (Shape (Fin n ⊕ κ)) n) :
    GameTable (Fin n ⊕ κ) where
  toShapeTable := t.toShapeTable.extend own
  place := .inr ∘ t.place
  places := t.places.extend own

end GameTable
end ShapeQuery
