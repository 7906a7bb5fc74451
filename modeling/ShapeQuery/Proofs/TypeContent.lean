import ShapeQuery.Declaration

/-!
# What a field of a type holds

The content of a field depends on its type without wrappers.  That type is a
collection, or a map, which no field with an annotation may have, or neither.  A type
that is not a map has one content for each value of the option `nested`
(`content_eq_ok_iff`).
-/

namespace ShapeQuery
namespace Declaration
namespace TypeExpr

/-- A collection as it is written around its element. -/
inductive CollectionOf : TypeExpr → TypeExpr → Prop
  | slice (element : TypeExpr) :
      CollectionOf (.slice element) element
  | array (element : TypeExpr) (length : String) :
      CollectionOf (.array element length) element
  | applied {name : Path} {arguments : Option (List TypeArgument)} {element : TypeExpr} :
      name.lastSegment ∈ collections →
      (typeArguments arguments).head? = some element →
      (name.lastSegment = inlineCollection → ∀ inner length, element ≠ .array inner length) →
      CollectionOf (.path name arguments) element
  /-- The inline collection is written around an array. -/
  | inline {name : Path} {arguments : Option (List TypeArgument)} {element : TypeExpr}
      {length : String} :
      name.lastSegment = inlineCollection →
      (typeArguments arguments).head? = some (.array element length) →
      CollectionOf (.path name arguments) element

/-- The type without wrappers is a collection. -/
def IsCollection (t : TypeExpr) : Prop :=
  ∃ element, CollectionOf t.unwrap element

/-- The type without wrappers has two type arguments or more and is no known collection. -/
def IsMap (t : TypeExpr) : Prop :=
  ∃ name arguments,
    t.unwrap = .path name arguments ∧
    2 ≤ (typeArguments arguments).length ∧
    name.lastSegment ∉ collections

/-- What a field of the type holds, the option `nested` being given or not. -/
inductive Holds (t : TypeExpr) : Bool → FieldContent TypeExpr → Prop
  | scalar :
      ¬ t.IsCollection →
      Holds t false .scalar
  | scalarCollection :
      t.IsCollection →
      Holds t false .scalarCollection
  | nested :
      ¬ t.IsCollection →
      Holds t true (.nested t.unwrap)
  | nestedCollection {element : TypeExpr} :
      CollectionOf t.unwrap element →
      Holds t true (.nestedCollection element.unwrap)

variable {t element : TypeExpr} {nested : Bool} {held : FieldContent TypeExpr}

theorem directElement?_eq_some_iff :
    t.directElement? = some element ↔ CollectionOf t element := by
  constructor
  · intro h
    unfold directElement? at h
    split at h
    case h_1 =>
      cases h
      exact .slice element
    case h_2 length =>
      cases h
      exact .array element length
    case h_3 name arguments =>
      split at h
      next =>
        cases h
      next inner hinner =>
        split at h
        next hinline =>
          split at h
          next =>
            cases h
            exact .inline hinline hinner
          next hother =>
            cases h
            exact .applied (hinline ▸ by decide) hinner fun _ => hother
        next hinline =>
          split at h
          next hname =>
            cases h
            exact .applied hname hinner fun h => absurd h hinline
          next =>
            cases h
    case h_4 =>
      cases h
  · intro h
    cases h with
    | slice =>
        rfl
    | array =>
        rfl
    | inline hname helement =>
        simp only [directElement?, helement, hname, if_true]
    | applied hname helement harray =>
        simp only [directElement?, helement, hname, if_true]
        split
        next hinline =>
          split
          next =>
            exact absurd rfl (harray hinline _ _)
          next =>
            rfl
        next =>
          rfl

theorem element?_eq_some_iff {inner : TypeExpr} :
    t.element? = some inner ↔ ∃ element, CollectionOf t.unwrap element ∧ element.unwrap = inner := by
  simp only [element?, Option.map_eq_some_iff, directElement?_eq_some_iff]

theorem element?_eq_none_iff :
    t.element? = none ↔ ¬ t.IsCollection := by
  simp only [element?, Option.map_eq_none_iff, IsCollection, ← directElement?_eq_some_iff,
    ← Option.isSome_iff_exists, Option.not_isSome_iff_eq_none]

theorem exists_collectionOf_path
    {name : Path} {arguments : Option (List TypeArgument)}
    (hname : name.lastSegment ∈ collections)
    (harguments : typeArguments arguments ≠ []) :
    ∃ element, CollectionOf (.path name arguments) element := by
  obtain ⟨inner, rest, hlist⟩ := List.exists_cons_of_ne_nil harguments
  have hhead : (typeArguments arguments).head? = some inner := by
    rw [hlist, List.head?_cons]
  by_cases h : name.lastSegment = inlineCollection ∧ ∃ element length, inner = .array element length
  · obtain ⟨hinline, element, length, rfl⟩ := h
    exact ⟨element, .inline hinline hhead⟩
  · refine ⟨inner, .applied hname hhead fun hinline element length hinner => ?_⟩
    exact h ⟨hinline, element, length, hinner⟩

/-- A type that is no collection is told to be a map by its type arguments alone. -/
theorem isMap_iff_of_not_isCollection
    (h : ¬ t.IsCollection) :
    t.IsMap ↔ 1 < t.unwrap.typeArgumentCount := by
  constructor
  · rintro ⟨name, arguments, hunwrap, hlength, _⟩
    rw [hunwrap]
    exact hlength
  · intro hcount
    cases hunwrap : t.unwrap with
    | path name arguments =>
        rw [hunwrap, typeArgumentCount] at hcount
        refine ⟨name, arguments, hunwrap, hcount, fun hname => h ?_⟩
        rw [IsCollection, hunwrap]
        exact exists_collectionOf_path hname (List.ne_nil_of_length_pos (by omega))
    | reference | paren | group | slice | array | tuple | pointer | other =>
        simp [hunwrap, typeArgumentCount] at hcount

theorem IsMap.not_isCollection
    (h : t.IsMap) :
    ¬ t.IsCollection := by
  obtain ⟨name, arguments, hunwrap, _, hname⟩ := h
  rintro ⟨element, helement⟩
  rw [hunwrap] at helement
  cases helement with
  | applied hcollection _ _ =>
      exact hname hcollection
  | inline hinline _ =>
      exact hname (hinline ▸ by decide)

theorem content_of_collectionOf
    (h : CollectionOf t.unwrap element) :
    t.content nested =
      .ok (if nested then .nestedCollection element.unwrap else .scalarCollection) := by
  rw [content, element?_eq_some_iff.mpr ⟨element, h, rfl⟩]

theorem content_of_not_isCollection
    (h : ¬ t.IsCollection) (hmap : ¬ t.IsMap) :
    t.content nested = .ok (if nested then .nested t.unwrap else .scalar) := by
  rw [isMap_iff_of_not_isCollection h] at hmap
  simp only [content, element?_eq_none_iff.mpr h, gt_iff_lt, hmap, if_false]

theorem content_of_isMap
    (h : t.IsMap) :
    t.content nested = .error .mapField := by
  have hcollection := h.not_isCollection
  rw [isMap_iff_of_not_isCollection hcollection] at h
  simp only [content, element?_eq_none_iff.mpr hcollection, gt_iff_lt, h, if_true]

theorem content_of_holds
    (hmap : ¬ t.IsMap) (h : t.Holds nested held) :
    t.content nested = .ok held := by
  cases h with
  | scalar h | nested h =>
      exact content_of_not_isCollection h hmap
  | scalarCollection h =>
      obtain ⟨element, h⟩ := h
      exact content_of_collectionOf h
  | nestedCollection h =>
      exact content_of_collectionOf h

theorem exists_holds (t : TypeExpr) (nested : Bool) :
    ∃ held, t.Holds nested held := by
  by_cases h : t.IsCollection
  · cases nested with
    | false =>
        exact ⟨_, .scalarCollection h⟩
    | true =>
        obtain ⟨element, h⟩ := h
        exact ⟨_, .nestedCollection h⟩
  · cases nested with
    | false =>
        exact ⟨_, .scalar h⟩
    | true =>
        exact ⟨_, .nested h⟩

/-- The content is found unless the type is a map, and it is what a field of the type holds. -/
theorem content_eq_ok_iff :
    t.content nested = .ok held ↔ ¬ t.IsMap ∧ t.Holds nested held := by
  constructor
  · intro h
    by_cases hmap : t.IsMap
    · rw [content_of_isMap hmap] at h
      cases h
    · obtain ⟨held', hheld'⟩ := t.exists_holds nested
      rw [content_of_holds hmap hheld'] at h
      cases h
      exact ⟨hmap, hheld'⟩
  · rintro ⟨hmap, hheld⟩
    exact content_of_holds hmap hheld

end TypeExpr
end Declaration
end ShapeQuery
