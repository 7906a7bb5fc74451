import ShapeQuery.Shape.Checked

/-!
# Registries

A registry keeps the checked form of the shapes that have been resolved.  A shape is
checked when it is first asked for and kept from then on; a shape that fails the
check is not kept and is checked again the next time.
-/

namespace ShapeQuery

/-- Resolved shapes, the latest first. -/
structure Registry (ι : Type) where
  entries : List (ι × CheckedShape ι)
  deriving DecidableEq

namespace Registry

variable {ι : Type} [DecidableEq ι]

def empty : Registry ι :=
  ⟨[]⟩

/-- The checked form kept for a shape. -/
def find? (r : Registry ι) (i : ι) : Option (CheckedShape ι) :=
  r.entries.lookup i

def contains (r : Registry ι) (i : ι) : Bool :=
  (r.find? i).isSome

def size (r : Registry ι) : Nat :=
  r.entries.length

def isEmpty (r : Registry ι) : Bool :=
  r.entries.isEmpty

/-- Keeps the checked form of a shape. -/
def insert (r : Registry ι) (i : ι) (c : CheckedShape ι) : Registry ι :=
  ⟨(i, c) :: r.entries⟩

@[simp] theorem find?_empty
    (i : ι) :
    (empty : Registry ι).find? i = none := by
  rfl

@[simp] theorem find?_insert_self
    (r : Registry ι) (i : ι) (c : CheckedShape ι) :
    (r.insert i c).find? i = some c := by
  simp [find?, insert]

theorem find?_insert_of_ne
    (r : Registry ι) {i j : ι} (c : CheckedShape ι) (h : j ≠ i) :
    (r.insert i c).find? j = r.find? j := by
  simp [find?, insert, List.lookup_cons, beq_eq_false_iff_ne.mpr h]

/-- The resolved shapes in the order of the table. -/
def resolved (t : ShapeTable ι) (r : Registry ι) : List ι :=
  t.ids.filter r.contains

/-- The checked form of a shape, from the registry or by checking it now. -/
def resolve (t : ShapeTable ι) (r : Registry ι) (i : ι) :
    Except ShapeError (CheckedShape ι) × Registry ι :=
  match r.find? i with
  | some c => (.ok c, r)
  | none =>
    match t.check i with
    | .error e => (.error e, r)
    | .ok c => (.ok c, r.insert i c)

end Registry
end ShapeQuery
