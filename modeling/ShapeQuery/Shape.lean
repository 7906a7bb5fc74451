/-!
# Shapes

A shape is a named table of declared fields.  A field holds a scalar, a collection
of scalars, or the fields of another shape; the fourth content, a collection of
another shape, can be declared but has no query path.

The type `ι` is what declarations use to refer to other shapes.  A
`ShapeTable` gives the shape behind each such reference.  References are the
identities of shapes: two shapes of a table may share a name and even all of
their fields.  A table is finite, and any graph of references may occur in it.

A shape can fail to have a field list: its own table is empty or holds a field that cannot
be queried, or its nesting never ends.
-/

namespace ShapeQuery

/-- What a declared field holds. -/
inductive FieldContent (ι : Type)
  | scalar
  | scalarCollection
  | nested (shape : ι)
  | nestedCollection (shape : ι)
  deriving DecidableEq

/-- A declared field. -/
structure DeclaredField (ι : Type) where
  name : String
  content : FieldContent ι
  deriving DecidableEq

/-- A named table of declared fields. -/
structure Shape (ι : Type) where
  name : String
  fields : List (DeclaredField ι)
  deriving DecidableEq

section Renaming

variable {ι κ : Type}

def FieldContent.map (f : ι → κ) : FieldContent ι → FieldContent κ
  | scalar => scalar
  | scalarCollection => scalarCollection
  | nested shape => nested (f shape)
  | nestedCollection shape => nestedCollection (f shape)

def DeclaredField.map (f : ι → κ) (d : DeclaredField ι) : DeclaredField κ :=
  ⟨d.name, d.content.map f⟩

/-- Renames the references of a shape. -/
def Shape.map (f : ι → κ) (s : Shape ι) : Shape κ :=
  ⟨s.name, s.fields.map (DeclaredField.map f)⟩

theorem DeclaredField.map_map
    {μ : Type} (g : κ → μ) (f : ι → κ) (d : DeclaredField ι) :
    (d.map f).map g = d.map (g ∘ f) := by
  obtain ⟨name, content⟩ := d
  cases content <;> rfl

theorem Shape.map_map
    {μ : Type} (g : κ → μ) (f : ι → κ) (s : Shape ι) :
    (s.map f).map g = s.map (g ∘ f) := by
  have hfields : DeclaredField.map g ∘ DeclaredField.map f = DeclaredField.map (g ∘ f) :=
    funext (DeclaredField.map_map g f)
  simp only [map, List.map_map, hfields]

end Renaming

/-- Finitely many shapes by their identities. -/
structure ShapeTable (ι : Type) where
  shape : ι → Shape ι
  ids : List ι
  mem_ids : ∀ i, i ∈ ids

namespace ShapeTable

variable {ι κ : Type}

/-- The shapes of two tables side by side, with no reference from one to the other. -/
def sum (left : ShapeTable ι) (right : ShapeTable κ) : ShapeTable (ι ⊕ κ) where
  shape
    | .inl i => (left.shape i).map .inl
    | .inr k => (right.shape k).map .inr
  ids := left.ids.map .inl ++ right.ids.map .inr
  mem_ids
    | .inl i => by simp [left.mem_ids i]
    | .inr k => by simp [right.mem_ids k]

/-- A table with further shapes in front of it, which may refer to it and to one another. -/
def extend {n : Nat} (base : ShapeTable κ) (own : Vector (Shape (Fin n ⊕ κ)) n) :
    ShapeTable (Fin n ⊕ κ) where
  shape
    | .inl i => own.get i
    | .inr k => (base.shape k).map .inr
  ids := (List.finRange n).map .inl ++ base.ids.map .inr
  mem_ids
    | .inl i => by simp
    | .inr k => by simp [base.mem_ids k]

/-- The shapes of another table are among those of a table, with what is nested in them. -/
def Places (t : ShapeTable ι) (base : ShapeTable κ) (place : κ → ι) : Prop :=
  ∀ k, t.shape (place k) = (base.shape k).map place

theorem places_sum_inr
    (left : ShapeTable ι) (right : ShapeTable κ) :
    (left.sum right).Places right .inr :=
  fun _ => rfl

/-- Further shapes, whatever they refer to, leave those that are already there as they are. -/
theorem Places.extend {n : Nat}
    {t : ShapeTable ι} {base : ShapeTable κ} {place : κ → ι}
    (h : t.Places base place) (own : Vector (Shape (Fin n ⊕ ι)) n) :
    (t.extend own).Places base (.inr ∘ place) := by
  intro k
  rw [← Shape.map_map, ← h k]
  rfl

end ShapeTable

/-- Why a shape has no field list. -/
inductive ShapeError
  | missingDeclarations (shape : String)
  | blankFieldName (shape : String) (index : Nat)
  | nestedCollection (shape : String) (field : String)
  /-- The names of the shapes from the first one down to the repeated one. -/
  | recursiveShape (names : List String)
  deriving DecidableEq

namespace ShapeError

/-- Writes one more name of a chain, after an arrow if anything is written yet. -/
def appendName (text name : String) : String :=
  if text = "" then name else text ++ " -> " ++ name

/-- The names of a chain of shapes, from the outermost inwards. -/
def chainText (names : List String) : String :=
  names.foldl appendName ""

def message : ShapeError → String
  | missingDeclarations shape =>
      "Shape `" ++ shape ++ "` does not declare any queryable fields"
  | blankFieldName shape index =>
      "Field #" ++ index.repr ++ " of shape `" ++ shape ++ "` has a blank query name"
  | nestedCollection shape field =>
      "Field `" ++ field ++ "` of shape `" ++ shape ++ "` is a collection of nested shapes"
  | recursiveShape names =>
      "Shape nesting never terminates: " ++ chainText names

end ShapeError

end ShapeQuery
