import ShapeQuery.Declaration.SourceToken

/-!
# Field types of a declaration

The types that fields of a declared item are written with, and what they say
about a field.

**Wrappers.**  References, parentheses, invisible groups, and the transparent
wrappers `Option`, `Box`, `Arc` and `Rc` applied to a type do not change what a
field holds; `TypeExpr.unwrap` removes them from the outside.

**Collections.**  A slice, an array, or a collection applied to a type holds many
elements; `TypeExpr.element?` is the element type, without its own wrappers.

Only the last segment of a path and its type arguments count.  A segment is
compared as it is written, so a raw identifier is never a known name.
-/

namespace ShapeQuery
namespace Declaration

mutual

/-- A type as it is written. -/
inductive TypeExpr
  /-- A path, and the arguments of its last segment if that is followed by angle
  brackets. -/
  | path (name : Path) (arguments : Option (List TypeArgument))
  | reference (target : TypeExpr) (lifetime : Option String) (isMutable : Bool)
  | paren (inner : TypeExpr)
  | group (inner : TypeExpr)
  | slice (element : TypeExpr)
  | array (element : TypeExpr) (length : String)
  | tuple (elements : List TypeExpr)
  | pointer (target : TypeExpr)
  /-- A type of any other form, such as a function pointer or a trait object. -/
  | other (source : String)

/-- An argument between angle brackets. -/
inductive TypeArgument
  | type (t : TypeExpr)
  | lifetime (name : String)
  | const (source : String)
  | assoc (name : String) (is : TypeExpr)

end

/-- The wrappers that leave the meaning of a field alone. -/
def transparentWrappers : List String :=
  ["Option", "Box", "Arc", "Rc"]

/-- The collection that is written around an array of its elements. -/
def inlineCollection : String :=
  "SmallVec"

/-- The types whose first type argument is the element of a collection. -/
def collections : List String :=
  ["Vec", "VecDeque", "LinkedList", "HashSet", "BTreeSet", "IndexSet", inlineCollection]

namespace TypeArgument

/-- The type of an argument that is a type. -/
def type? : TypeArgument → Option TypeExpr
  | type t => some t
  | _ => none

end TypeArgument

namespace TypeExpr

/-- The arguments that are types, in order. -/
def typeArguments : Option (List TypeArgument) → List TypeExpr
  | none => []
  | some arguments => arguments.filterMap TypeArgument.type?

/-- How many type arguments the last segment of a path has; none for other types. -/
def typeArgumentCount : TypeExpr → Nat
  | path _ arguments => (typeArguments arguments).length
  | _ => 0

/-- The type directly inside of a wrapper. -/
def wrapped? : TypeExpr → Option TypeExpr
  | reference target _ _ => some target
  | paren inner => some inner
  | group inner => some inner
  | path name arguments =>
    if name.lastSegment ∈ transparentWrappers then (typeArguments arguments).head?
    else none
  | _ => none

theorem sizeOf_lt_of_mem_typeArguments
    {arguments : List TypeArgument} {t : TypeExpr}
    (h : t ∈ typeArguments (some arguments)) :
    sizeOf t < sizeOf arguments := by
  obtain ⟨argument, hmem, htype⟩ := List.mem_filterMap.mp h
  have hlt := List.sizeOf_lt_of_mem hmem
  cases argument with
  | type s =>
      simp only [TypeArgument.type?, Option.some.injEq] at htype
      subst htype
      simp at hlt
      omega
  | lifetime =>
      simp [TypeArgument.type?] at htype
  | const =>
      simp [TypeArgument.type?] at htype
  | assoc =>
      simp [TypeArgument.type?] at htype

/-- What is wrapped is smaller than its wrapper. -/
theorem sizeOf_lt_of_wrapped?
    {t inner : TypeExpr}
    (h : t.wrapped? = some inner) :
    sizeOf inner < sizeOf t := by
  cases t with
  | path name arguments =>
      simp only [wrapped?] at h
      split at h
      next =>
        cases arguments with
        | none =>
            simp [typeArguments] at h
        | some arguments =>
            have hlt := sizeOf_lt_of_mem_typeArguments (List.mem_of_mem_head? h)
            simp
            omega
      next => simp at h
  | reference target lifetime isMutable =>
      simp [wrapped?] at h
      subst h
      simp
      omega
  | paren t =>
      simp [wrapped?] at h
      subst h
      simp
  | group t =>
      simp [wrapped?] at h
      subst h
      simp
  | slice =>
      simp [wrapped?] at h
  | array =>
      simp [wrapped?] at h
  | tuple =>
      simp [wrapped?] at h
  | pointer =>
      simp [wrapped?] at h
  | other =>
      simp [wrapped?] at h

/-- The type inside of all wrappers. -/
def unwrap (t : TypeExpr) : TypeExpr :=
  match _h : t.wrapped? with
  | some inner => unwrap inner
  | none => t
  termination_by t
  decreasing_by exact sizeOf_lt_of_wrapped? _h

/-- The element of a type that is itself a collection.  An array as the argument of
the inline collection stands for its own elements. -/
def directElement? : TypeExpr → Option TypeExpr
  | slice element => some element
  | array element _ => some element
  | path name arguments =>
    match (typeArguments arguments).head? with
    | none => none
    | some inner =>
      if name.lastSegment = inlineCollection then
        match inner with
        | array element _ => some element
        | _ => some inner
      else if name.lastSegment ∈ collections then some inner
      else none
  | _ => none

/-- The element type of a collection, with the wrappers on both sides removed. -/
def element? (t : TypeExpr) : Option TypeExpr :=
  t.unwrap.directElement?.map unwrap

end TypeExpr
end Declaration
end ShapeQuery
