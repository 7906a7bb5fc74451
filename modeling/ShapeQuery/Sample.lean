import ShapeQuery.Shape

/-!
# Sample shapes

Small shapes that show how shapes nest and how they fail: a flat one, a family of
three generations that shares its grandchildren, and one for each reason that a
shape has no field list, among them one that fails through its child alone.
-/

namespace ShapeQuery

/-- The sample shapes. -/
inductive SampleShape
  | flat
  | grandchild1
  | grandchild2
  | grandchild3
  | child1
  | child2
  | child3
  | family
  | cover
  | game
  | unannotated
  | emptyName
  | blankName
  | gallery
  | brokenParent
  deriving DecidableEq

namespace SampleShape

def name : SampleShape → String
  | flat => "Flat"
  | grandchild1 => "Grandchild1"
  | grandchild2 => "Grandchild2"
  | grandchild3 => "Grandchild3"
  | child1 => "Child1"
  | child2 => "Child2"
  | child3 => "Child3"
  | family => "Family"
  | cover => "Cover"
  | game => "Game"
  | unannotated => "Unannotated"
  | emptyName => "EmptyName"
  | blankName => "BlankName"
  | gallery => "Gallery"
  | brokenParent => "BrokenParent"

def fields : SampleShape → List (DeclaredField SampleShape)
  | flat =>
      [ ⟨"field1", .scalar⟩,
        ⟨"field2", .scalar⟩,
        ⟨"field3", .scalar⟩,
        ⟨"field4", .scalar⟩,
        ⟨"field5", .scalar⟩,
        ⟨"field6", .scalar⟩ ]
  | grandchild1 => [⟨"field1", .scalar⟩]
  | grandchild2 => [⟨"field1", .scalar⟩, ⟨"field2", .scalar⟩]
  | grandchild3 => [⟨"field1", .scalar⟩, ⟨"field2", .scalar⟩, ⟨"field3", .scalar⟩]
  | child1 => [⟨"kid1", .nested grandchild1⟩]
  | child2 => [⟨"kid1", .nested grandchild1⟩, ⟨"kid2", .nested grandchild2⟩]
  | child3 =>
      [ ⟨"kid1", .nested grandchild1⟩,
        ⟨"kid2", .nested grandchild2⟩,
        ⟨"kid3", .nested grandchild3⟩ ]
  | family =>
      [ ⟨"parent", .scalar⟩,
        ⟨"child1", .nested child1⟩,
        ⟨"child2", .nested child2⟩,
        ⟨"child3", .nested child3⟩ ]
  | cover => [⟨"url", .scalar⟩]
  | game => [⟨"id", .scalar⟩, ⟨"cover", .nested cover⟩, ⟨"name", .scalar⟩]
  | unannotated => []
  | emptyName => [⟨"", .scalar⟩]
  | blankName => [⟨"id", .scalar⟩, ⟨"   ", .scalar⟩]
  | gallery => [⟨"id", .scalar⟩, ⟨"screenshots", .nestedCollection cover⟩]
  | brokenParent => [⟨"id", .scalar⟩, ⟨"child", .nested emptyName⟩]

def all : List SampleShape :=
  [ flat, grandchild1, grandchild2, grandchild3, child1,
    child2, child3, family, cover, game,
    unannotated, emptyName, blankName, gallery, brokenParent ]

def table : ShapeTable SampleShape where
  shape i := ⟨i.name, i.fields⟩
  ids := all
  mem_ids i := by cases i <;> simp [all]

end SampleShape
end ShapeQuery
