import ShapeQuery.Proofs.RetypedFields
import ShapeQuery.Proofs.TypeContent

/-!
# Stacks of wrappers

References, parentheses, groups and transparent wrappers may stand around a type in any
number and order, and around the element of a collection as well.  None of them changes
what a field of the type holds.

**Wrappers.**  A `Wrapper` is one layer with all that is written with it: a lifetime, the
path in front of a name, and the arguments around the wrapped type.  A type is unwrapped
one step exactly if it is some wrapper around a type, so unwrapping takes off all layers
of a stack and ends at a type that is no wrapper around anything.

**Collections.**  A `CollectionForm` is a collection without its element.  Whatever stands
around the element, the field holds the element without its wrappers.
-/

namespace ShapeQuery
namespace Declaration

/-- One of some named types with all of its arguments but the first one that is a type. -/
structure Application (names : List String) where
  name : Path
  before : List TypeArgument
  after : List TypeArgument
  named : name.lastSegment ∈ names
  untyped : ∀ a ∈ before, a.type? = none

/-- One layer around a type that leaves the meaning of a field alone. -/
inductive Wrapper
  | reference (lifetime : Option String) (isMutable : Bool)
  | paren
  | group
  | applied (a : Application transparentWrappers)

/-- The collections that are written around their element directly. -/
def elementCollections : List String :=
  collections.filter (· ≠ inlineCollection)

/-- A collection without its element. -/
inductive CollectionForm
  | slice
  | array (length : String)
  | applied (a : Application elementCollections)
  /-- The inline collection around an array. -/
  | inline (a : Application [inlineCollection]) (length : String)

/-- The named type with its first type argument. -/
def Application.on {names : List String} (a : Application names) (t : TypeExpr) : TypeExpr :=
  .path a.name (some (a.before ++ .type t :: a.after))

namespace Wrapper

/-- The wrapper around a type. -/
def around : Wrapper → TypeExpr → TypeExpr
  | reference lifetime isMutable, t => .reference t lifetime isMutable
  | paren, t => .paren t
  | group, t => .group t
  | applied a, t => a.on t

/-- Wrappers around a type, the outermost first. -/
def stack (ws : List Wrapper) (t : TypeExpr) : TypeExpr :=
  ws.foldr around t

end Wrapper

/-- The collection of some element. -/
def CollectionForm.of : CollectionForm → TypeExpr → TypeExpr
  | slice, t => .slice t
  | array length, t => .array t length
  | applied a, t => a.on t
  | inline a length, t => a.on (.array t length)

namespace TypeExpr

variable {t t' inner : TypeExpr}

section Applications

variable {names : List String}

theorem head?_typeArguments_on
    (a : Application names) (t : TypeExpr) :
    (typeArguments (some (a.before ++ .type t :: a.after))).head? = some t := by
  rw [typeArguments, List.head?_filterMap, List.findSome?_append,
    List.findSome?_eq_none_iff.mpr a.untyped]
  rfl

/-- A type argument comes first in a list iff only other arguments are in front of it. -/
theorem exists_on_of_head?
    {name : Path} {arguments : Option (List TypeArgument)}
    (hname : name.lastSegment ∈ names) (h : (typeArguments arguments).head? = some t) :
    ∃ a : Application names, path name arguments = a.on t := by
  cases arguments with
  | none =>
      cases h
  | some arguments =>
      rw [typeArguments, List.head?_filterMap] at h
      obtain ⟨before, found, after, rfl, hfound, hbefore⟩ := List.findSome?_eq_some_iff.mp h
      cases found with
      | type s =>
          obtain rfl := Option.some.inj hfound
          exact ⟨⟨name, before, after, hname, hbefore⟩, rfl⟩
      | lifetime | const | assoc =>
          cases hfound

end Applications

section Unwrapping

/-- A type is unwrapped one step iff it is a wrapper around another one. -/
theorem wrapped?_eq_some_iff :
    t.wrapped? = some inner ↔ ∃ w : Wrapper, t = w.around inner := by
  constructor
  · intro h
    cases t with
    | path name arguments =>
        simp only [wrapped?, ite_eq_iff, reduceCtorEq, and_false, or_false] at h
        obtain ⟨a, ha⟩ := exists_on_of_head? h.1 h.2
        exact ⟨.applied a, ha⟩
    | reference target lifetime isMutable =>
        obtain rfl := Option.some.inj h
        exact ⟨.reference lifetime isMutable, rfl⟩
    | paren t =>
        obtain rfl := Option.some.inj h
        exact ⟨.paren, rfl⟩
    | group t =>
        obtain rfl := Option.some.inj h
        exact ⟨.group, rfl⟩
    | slice | array | tuple | pointer | other =>
        cases h
  · rintro ⟨w, rfl⟩
    cases w with
    | reference | paren | group =>
        rfl
    | applied a =>
        rw [Wrapper.around, Application.on, wrapped?, if_pos a.named]
        exact head?_typeArguments_on a inner

theorem unwrap_of_wrapped?
    (h : t.wrapped? = some inner) :
    t.unwrap = inner.unwrap := by
  rw [unwrap]
  split
  next hinner =>
    rw [h, Option.some.injEq] at hinner
    rw [hinner]
  next hnone =>
    rw [h] at hnone
    cases hnone

theorem unwrap_of_not_wrapped
    (h : t.wrapped? = none) :
    t.unwrap = t := by
  rw [unwrap]
  split
  next hinner =>
    rw [h] at hinner
    cases hinner
  next =>
    rfl

/-- Unwrapping ends at a type that is no wrapper around anything. -/
theorem wrapped?_unwrap
    (t : TypeExpr) :
    t.unwrap.wrapped? = none := by
  fun_induction unwrap t with
  | case1 t inner h ih =>
      exact ih
  | case2 t h =>
      exact h

theorem unwrap_unwrap
    (t : TypeExpr) :
    t.unwrap.unwrap = t.unwrap :=
  unwrap_of_not_wrapped t.wrapped?_unwrap

theorem unwrap_ne_around
    (t : TypeExpr) (w : Wrapper) (inner : TypeExpr) :
    t.unwrap ≠ w.around inner := by
  intro h
  have hsome := wrapped?_eq_some_iff.mpr ⟨w, h⟩
  rw [wrapped?_unwrap] at hsome
  cases hsome

theorem unwrap_stack
    (ws : List Wrapper) (t : TypeExpr) :
    (Wrapper.stack ws t).unwrap = t.unwrap := by
  induction ws with
  | nil =>
      rfl
  | cons w ws ih =>
      rw [Wrapper.stack, List.foldr_cons, ← ih]
      exact unwrap_of_wrapped? (wrapped?_eq_some_iff.mpr ⟨w, rfl⟩)

end Unwrapping

section Collections

theorem collectionOf_of
    (c : CollectionForm) (t : TypeExpr) :
    CollectionOf (c.of t) t := by
  cases c with
  | slice =>
      exact .slice t
  | array length =>
      exact .array t length
  | applied a =>
      obtain ⟨hname, hne⟩ := List.mem_filter.mp a.named
      have hother : a.name.lastSegment ≠ inlineCollection := by simpa using hne
      exact .applied hname (head?_typeArguments_on a t) fun hinline => absurd hinline hother
  | inline a length =>
      exact .inline (List.mem_singleton.mp a.named) (head?_typeArguments_on a (.array t length))

/-- No collection is a wrapper. -/
theorem unwrap_of_collectionOf
    (h : CollectionOf t inner) :
    t.unwrap = t := by
  have hdisjoint : ∀ name ∈ collections, name ∉ transparentWrappers := by decide
  have hinline : inlineCollection ∈ collections := by decide
  apply unwrap_of_not_wrapped
  cases h with
  | slice | array =>
      rfl
  | applied hname _ _ =>
      exact if_neg (hdisjoint _ hname)
  | inline hname _ =>
      exact if_neg (hdisjoint _ (hname ▸ hinline))

/-- Whatever wrappers stand around a collection and its element, it is one of that element. -/
theorem collectionOf_stack
    (c : CollectionForm) (outer ws : List Wrapper) (t : TypeExpr) :
    CollectionOf (Wrapper.stack outer (c.of (Wrapper.stack ws t))).unwrap (Wrapper.stack ws t) := by
  have h := collectionOf_of c (Wrapper.stack ws t)
  rw [unwrap_stack, unwrap_of_collectionOf h]
  exact h

end Collections

/-- A field says the same with either type, whatever item it stands in. -/
structure Interchangeable (t t' : TypeExpr) : Prop where
  element? : t'.element? = t.element?
  content : ∀ nested, t'.content nested = t.content nested
  shape : ∀ (item : Item) (before : List ItemField) (f : ItemField) (after : List ItemField),
    (item.withFields (before ++ { f with type := t' } :: after)).shape =
      (item.withFields (before ++ { f with type := t } :: after)).shape

section Interchanging

theorem Interchangeable.of_content
    (helement : t'.element? = t.element?)
    (hcontent : ∀ nested, t'.content nested = t.content nested) :
    t.Interchangeable t' where
  element? := helement
  content := hcontent
  shape item before f after := by
    have hsame : ∀ fs : List ItemField, List.Forall₂ (ItemField.Matches id id) fs fs :=
      fun fs => List.forall₂_same.mpr fun f _ => ⟨rfl, rfl, fun _ _ => rfl⟩
    have hfield : ItemField.Matches id id { f with type := t } { f with type := t' } :=
      ⟨rfl, rfl, fun o _ => by rw [hcontent]⟩
    have hshape := item.map_shape_of_matches
      (List.rel_append (hsame before) (.cons hfield (hsame after)))
    rwa [Shape.map_id, Except.map_id] at hshape

theorem Interchangeable.of_unwrap
    (h : t'.unwrap = t.unwrap) :
    t.Interchangeable t' := by
  have helement : t'.element? = t.element? := by
    rw [TypeExpr.element?, TypeExpr.element?, h]
  refine .of_content helement fun nested => ?_
  rw [TypeExpr.content, TypeExpr.content, helement, h]

theorem Interchangeable.of_collectionOf
    {element element' : TypeExpr}
    (h : CollectionOf t.unwrap element) (h' : CollectionOf t'.unwrap element')
    (hunwrap : element'.unwrap = element.unwrap) :
    t.Interchangeable t' := by
  refine .of_content ?_ fun nested => ?_
  · rw [element?_eq_some_iff.mpr ⟨element, h, rfl⟩,
      element?_eq_some_iff.mpr ⟨element', h', hunwrap⟩]
  · rw [content_of_collectionOf h, content_of_collectionOf h', hunwrap]

end Interchanging

/--
Any stack of wrappers is removed by unwrapping, and a field says the same with it as
without it: its element type is the same, and so is the shape that its item declares or
the error.  The same holds of any stack around the element of a collection.  Unwrapping
once more changes nothing, and what it gives is no wrapper around any type.
-/
theorem stacks_transparent :
    (∀ (ws : List Wrapper) (t : TypeExpr),
      (Wrapper.stack ws t).unwrap = t.unwrap ∧ t.Interchangeable (Wrapper.stack ws t)) ∧
    (∀ (c : CollectionForm) (outer ws : List Wrapper) (t : TypeExpr),
      (Wrapper.stack outer (c.of (Wrapper.stack ws t))).element? = some t.unwrap ∧
      (c.of t).Interchangeable (Wrapper.stack outer (c.of (Wrapper.stack ws t)))) ∧
    (∀ t : TypeExpr, t.unwrap.unwrap = t.unwrap) ∧
    ∀ (t : TypeExpr) (w : Wrapper) (inner : TypeExpr), t.unwrap ≠ w.around inner := by
  refine ⟨fun ws t => ⟨unwrap_stack ws t, .of_unwrap (unwrap_stack ws t)⟩,
    fun c outer ws t => ⟨?_, ?_⟩, unwrap_unwrap, unwrap_ne_around⟩
  · exact element?_eq_some_iff.mpr ⟨_, collectionOf_stack c outer ws t, unwrap_stack ws t⟩
  · exact .of_collectionOf (collectionOf_stack c [] [] t) (collectionOf_stack c outer ws t)
      (unwrap_stack ws t)

end TypeExpr
end Declaration
end ShapeQuery
