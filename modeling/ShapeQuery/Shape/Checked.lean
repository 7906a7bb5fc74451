import ShapeQuery.Shape
import ShapeQuery.Text

/-!
# Checked shapes

A shape is checked before it is queried.  Its table must not be empty, and every
declaration of it must be fit: the name is not blank, and the content is not a
collection of another shape.  The check looks at the shape's own table only;
whether nested shapes are fit is found out when they are reached.

The first unfit declaration gives the error, and within one declaration a blank
name comes before a collection of another shape.
-/

namespace ShapeQuery

/-- What a field holds, for the fields that can be queried. -/
inductive FieldKind (ι : Type)
  | scalar
  | scalarCollection
  | nested (shape : ι)
  deriving DecidableEq

namespace FieldKind

variable {ι : Type}

/-- The fields that end a path. -/
def isLeaf : FieldKind ι → Bool
  | nested _ => false
  | _ => true

end FieldKind

/-- A field that can be queried. -/
structure CheckedField (ι : Type) where
  name : String
  kind : FieldKind ι
  deriving DecidableEq

/-- The declaration that a checked field is made from. -/
def CheckedField.declared {ι : Type} (f : CheckedField ι) : DeclaredField ι :=
  ⟨f.name,
    match f.kind with
    | .scalar => .scalar
    | .scalarCollection => .scalarCollection
    | .nested child => .nested child⟩

/-- A checked shape. -/
structure CheckedShape (ι : Type) where
  shape : ι
  name : String
  fields : List (CheckedField ι)
  deriving DecidableEq

section Checking

variable {ι : Type}

/-- Checks the declaration at an index of the named shape.  The name is kept as it is. -/
def DeclaredField.check (shape : String) (index : Nat) (d : DeclaredField ι) :
    Except ShapeError (CheckedField ι) :=
  if Text.isBlank d.name then .error (.blankFieldName shape index)
  else
    match d.content with
    | .scalar => .ok ⟨d.name, .scalar⟩
    | .scalarCollection => .ok ⟨d.name, .scalarCollection⟩
    | .nested child => .ok ⟨d.name, .nested child⟩
    | .nestedCollection _ => .error (.nestedCollection shape d.name)

/-- Checks declarations in order, the first of them standing at `index`. -/
def DeclaredField.checkAll (shape : String) (index : Nat) :
    List (DeclaredField ι) → Except ShapeError (List (CheckedField ι))
  | [] => .ok []
  | d :: rest =>
    match d.check shape index with
    | .error e => .error e
    | .ok field =>
      match checkAll shape (index + 1) rest with
      | .error e => .error e
      | .ok fields => .ok (field :: fields)

/-- Checks a shape with a given identity. -/
def Shape.check (i : ι) (s : Shape ι) : Except ShapeError (CheckedShape ι) :=
  if s.fields.isEmpty then .error (.missingDeclarations s.name)
  else
    match DeclaredField.checkAll s.name 0 s.fields with
    | .error e => .error e
    | .ok fields => .ok ⟨i, s.name, fields⟩

/-- Checks a shape of a table. -/
def ShapeTable.check (t : ShapeTable ι) (i : ι) : Except ShapeError (CheckedShape ι) :=
  Shape.check i (t.shape i)

theorem DeclaredField.declared_of_check
    {shape : String} {index : Nat} {d : DeclaredField ι} {field : CheckedField ι}
    (h : d.check shape index = .ok field) :
    field.declared = d := by
  rcases d with ⟨name, content⟩
  unfold DeclaredField.check at h
  split at h
  next => cases h
  next =>
    cases content <;> cases h <;> rfl

theorem DeclaredField.declared_of_checkAll
    {shape : String} {index : Nat} {ds : List (DeclaredField ι)}
    {fields : List (CheckedField ι)}
    (h : DeclaredField.checkAll shape index ds = .ok fields) :
    fields.map CheckedField.declared = ds := by
  induction ds generalizing index fields with
  | nil =>
      cases h
      rfl
  | cons d rest ih =>
      unfold DeclaredField.checkAll at h
      split at h
      next => cases h
      next field hfield =>
        split at h
        next => cases h
        next more hmore =>
          cases h
          rw [List.map_cons, DeclaredField.declared_of_check hfield, ih hmore]

/-- A checked shape bears the identity that it was checked under. -/
theorem ShapeTable.shape_of_check
    {t : ShapeTable ι} {i : ι} {c : CheckedShape ι}
    (h : t.check i = .ok c) :
    c.shape = i := by
  unfold ShapeTable.check Shape.check at h
  split at h
  next => cases h
  next =>
    split at h
    next => cases h
    next fields hfields =>
      cases h
      rfl

/-- A checked shape keeps the declared fields in their order. -/
theorem ShapeTable.declared_of_check
    {t : ShapeTable ι} {i : ι} {c : CheckedShape ι}
    (h : t.check i = .ok c) :
    c.fields.map CheckedField.declared = (t.shape i).fields := by
  unfold ShapeTable.check Shape.check at h
  split at h
  next => cases h
  next =>
    split at h
    next => cases h
    next fields hfields =>
      cases h
      exact DeclaredField.declared_of_checkAll hfields

end Checking
end ShapeQuery
