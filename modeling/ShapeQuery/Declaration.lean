import ShapeQuery.Declaration.Attribute
import ShapeQuery.Declaration.TypeExpr
import ShapeQuery.Shape

/-!
# Declarations of shapes

A shape can be declared by annotating a record: `Item.shape` is the shape that an
annotated item declares, its references being the element types of its nested
fields.

**Accepted items.**  An item must be a record with named fields, or without any
fields, and have no generic parameters.  Fields without an annotation play no
part.  Whether names are blank, whether there is a field at all, and whether a
collection is nested is left to the check of the shape.

**Errors.**  The item as a whole is judged first, then its attributes, then its
fields in order.
-/

namespace ShapeQuery
namespace Declaration

/-- A named field of an item. -/
structure ItemField where
  name : String
  attributes : List Attribute
  type : TypeExpr

/-- What an item is made of. -/
inductive ItemBody
  | named (fields : List ItemField)
  | unit
  | unnamed
  /-- Anything that is not a record. -/
  | other

/-- An annotated item. -/
structure Item where
  name : String
  generics : List String
  attributes : List Attribute
  body : ItemBody

/-- A name without the marks of a raw identifier in front of it. -/
def withoutRawMarks : List Char → List Char
  | 'r' :: '#' :: rest => withoutRawMarks rest
  | cs => cs

/-- What a field holds, from its option and its written type.  A type other than a
collection may not have two type arguments. -/
def TypeExpr.content (nested : Bool) (t : TypeExpr) :
    Except DeclarationError (FieldContent TypeExpr) :=
  match t.element? with
  | some element => .ok (if nested then .nestedCollection element else .scalarCollection)
  | none =>
    if t.unwrap.typeArgumentCount > 1 then .error .mapField
    else .ok (if nested then .nested t.unwrap else .scalar)

namespace ItemField

/-- The name that queries use for a field. -/
def queryName (f : ItemField) (o : Options) : String :=
  o.name.getD (String.ofList (withoutRawMarks f.name.toList))

/-- The declaration that a field makes, if it is annotated. -/
def declaration? (f : ItemField) :
    Except DeclarationError (Option (DeclaredField TypeExpr)) :=
  match Options.ofAttributes f.attributes with
  | .error e => .error e
  | .ok none => .ok none
  | .ok (some o) =>
    match f.type.content o.nested with
    | .error e => .error e
    | .ok content => .ok (some ⟨f.queryName o, content⟩)

/-- The declarations that fields make, in order. -/
def declarations : List ItemField → Except DeclarationError (List (DeclaredField TypeExpr))
  | [] => .ok []
  | f :: rest =>
    match f.declaration? with
    | .error e => .error e
    | .ok found =>
      match declarations rest with
      | .error e => .error e
      | .ok decls => .ok (found.toList ++ decls)

end ItemField

namespace Item

/-- The fields of an item that can declare a shape. -/
def fields (item : Item) : Except DeclarationError (List ItemField) :=
  if item.generics ≠ [] then .error .genericItem
  else
    match item.body with
    | .named fields => .ok fields
    | .unit => .ok []
    | .unnamed => .error .unnamedFields
    | .other => .error .notRecord

/-- The name of the declared shape: the option, or else the item's name as written. -/
def shapeName (item : Item) : Except DeclarationError String :=
  match Options.ofAttributes item.attributes with
  | .error e => .error e
  | .ok none => .ok item.name
  | .ok (some o) => if o.nested then .error .nestedItem else .ok (o.name.getD item.name)

/-- The shape that an item declares. -/
def shape (item : Item) : Except DeclarationError (Shape TypeExpr) :=
  match item.fields with
  | .error e => .error e
  | .ok fields =>
    match item.shapeName with
    | .error e => .error e
    | .ok name =>
      match ItemField.declarations fields with
      | .error e => .error e
      | .ok decls => .ok ⟨name, decls⟩

end Item
end Declaration
end ShapeQuery
