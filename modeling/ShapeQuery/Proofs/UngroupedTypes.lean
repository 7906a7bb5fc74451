import ShapeQuery.Proofs.DeclaredCheck
import ShapeQuery.Proofs.WrapperStacks

/-!
# Types without parentheses and groups

Parentheses and invisible groups can stand at every position of a type, and
`TypeExpr.ungrouped` takes all of them away.  Whether an item is accepted does not depend
on them, and neither do the names and kinds of its declared fields.

**Elements.**  Unwrapping commutes with taking them away, so the shapes that nested fields
stand for are the same but for parentheses and groups.  There is one exception: the inline
collection recognises an array only if it is its argument as it stands.  An array in
parentheses is taken for the element itself (`HidesArray`), where without them it stands for
its own elements.
-/

namespace ShapeQuery
namespace Declaration

mutual

/-- A type without its parentheses and groups, at every depth. -/
def TypeExpr.ungrouped : TypeExpr → TypeExpr
  | .path name none => .path name none
  | .path name (some arguments) => .path name (some (ungroupedArguments arguments))
  | .reference target lifetime isMutable => .reference target.ungrouped lifetime isMutable
  | .paren inner => inner.ungrouped
  | .group inner => inner.ungrouped
  | .slice element => .slice element.ungrouped
  | .array element length => .array element.ungrouped length
  | .tuple elements => .tuple (ungroupedElements elements)
  | .pointer target => .pointer target.ungrouped
  | .other source => .other source

def TypeArgument.ungrouped : TypeArgument → TypeArgument
  | .type t => .type t.ungrouped
  | .lifetime name => .lifetime name
  | .const source => .const source
  | .assoc name is => .assoc name is.ungrouped

/-- The arguments one by one. -/
def ungroupedArguments : List TypeArgument → List TypeArgument
  | [] => []
  | a :: rest => a.ungrouped :: ungroupedArguments rest

/-- The elements of a tuple one by one. -/
def ungroupedElements : List TypeExpr → List TypeExpr
  | [] => []
  | t :: rest => t.ungrouped :: ungroupedElements rest

end

theorem ungroupedArguments_eq_map
    (arguments : List TypeArgument) :
    ungroupedArguments arguments = arguments.map TypeArgument.ungrouped := by
  induction arguments with
  | nil =>
      rfl
  | cons a rest ih =>
      rw [ungroupedArguments, ih, List.map_cons]

theorem TypeArgument.type?_ungrouped
    (a : TypeArgument) :
    a.ungrouped.type? = a.type?.map TypeExpr.ungrouped := by
  cases a <;> rfl

def Application.ungrouped {names : List String} (a : Application names) : Application names where
  name := a.name
  before := a.before.map TypeArgument.ungrouped
  after := a.after.map TypeArgument.ungrouped
  named := a.named
  untyped b hb := by
    obtain ⟨c, hc, rfl⟩ := List.mem_map.mp hb
    rw [c.type?_ungrouped, a.untyped c hc]
    rfl

namespace TypeExpr

variable {t : TypeExpr} {nested : Bool}

section Paths

theorem ungrouped_path
    (name : Path) (arguments : Option (List TypeArgument)) :
    (path name arguments).ungrouped =
      path name (arguments.map (List.map TypeArgument.ungrouped)) := by
  cases arguments with
  | none =>
      rfl
  | some arguments =>
      rw [ungrouped, ungroupedArguments_eq_map]
      rfl

theorem typeArguments_ungrouped
    (arguments : Option (List TypeArgument)) :
    typeArguments (arguments.map (List.map TypeArgument.ungrouped)) =
      (typeArguments arguments).map ungrouped := by
  cases arguments with
  | none =>
      rfl
  | some arguments =>
      have htype : TypeArgument.type? ∘ TypeArgument.ungrouped =
          Option.map ungrouped ∘ TypeArgument.type? :=
        funext TypeArgument.type?_ungrouped
      rw [Option.map_some, typeArguments, typeArguments, List.filterMap_map, htype,
        List.map_filterMap]
      rfl

theorem head?_typeArguments_ungrouped
    {arguments : Option (List TypeArgument)}
    (h : (typeArguments arguments).head? = some t) :
    (typeArguments (arguments.map (List.map TypeArgument.ungrouped))).head? = some t.ungrouped := by
  rw [typeArguments_ungrouped, List.head?_map, h]
  rfl

theorem ungrouped_on
    {names : List String} (a : Application names) (t : TypeExpr) :
    (a.on t).ungrouped = a.ungrouped.on t.ungrouped := by
  rw [Application.on, ungrouped_path, Option.map_some, List.map_append, List.map_cons]
  rfl

end Paths

section Unwrapping

/-- A type that is no wrapper around anything has no parentheses to lose at the outside. -/
theorem wrapped?_ungrouped
    (h : t.wrapped? = none) :
    t.ungrouped.wrapped? = none := by
  cases t with
  | path name arguments =>
      rw [wrapped?] at h
      rw [ungrouped_path, wrapped?, typeArguments_ungrouped, List.head?_map]
      split at h
      next hname =>
        rw [if_pos hname, h]
        rfl
      next hname =>
        rw [if_neg hname]
  | reference | paren | group =>
      cases h
  | slice | array | tuple | pointer | other =>
      rfl

theorem unwrap_ungrouped
    (t : TypeExpr) :
    t.ungrouped.unwrap = t.unwrap.ungrouped := by
  fun_induction unwrap t with
  | case1 t inner h ih =>
      rw [← ih]
      obtain ⟨w, rfl⟩ := wrapped?_eq_some_iff.mp h
      cases w with
      | reference lifetime isMutable =>
          exact unwrap_of_wrapped? rfl
      | paren | group =>
          rfl
      | applied a =>
          exact unwrap_of_wrapped?
            (wrapped?_eq_some_iff.mpr ⟨.applied a.ungrouped, ungrouped_on a inner⟩)
  | case2 t h =>
      exact unwrap_of_not_wrapped (wrapped?_ungrouped h)

theorem typeArgumentCount_ungrouped
    (h : t.wrapped? = none) :
    t.ungrouped.typeArgumentCount = t.typeArgumentCount := by
  cases t with
  | path name arguments =>
      rw [ungrouped_path, typeArgumentCount, typeArgumentCount, typeArguments_ungrouped,
        List.length_map]
  | reference | paren | group =>
      cases h
  | slice | array | tuple | pointer | other =>
      rfl

theorem sizeOf_unwrap_le
    (t : TypeExpr) :
    sizeOf t.unwrap ≤ sizeOf t := by
  fun_induction unwrap t with
  | case1 t inner h ih =>
      exact Nat.le_trans ih (Nat.le_of_lt (sizeOf_lt_of_wrapped? h))
  | case2 t h =>
      exact Nat.le_refl _

end Unwrapping

/-- The inline collection around something that is an array but for parentheses and groups. -/
def HidesArray (t : TypeExpr) : Prop :=
  ∃ (a : Application [inlineCollection]) (inner element : TypeExpr) (length : String),
    t = a.on inner ∧
    (∀ e l, inner ≠ .array e l) ∧
    inner.ungrouped = .array element length

section Collections

variable {element : TypeExpr}

theorem CollectionOf.ungrouped
    (h : CollectionOf t element) (hhides : ¬ t.HidesArray) :
    CollectionOf t.ungrouped element.ungrouped := by
  cases h with
  | slice =>
      exact .slice _
  | array =>
      exact .array _ _
  | inline hname helement =>
      rw [ungrouped_path]
      exact .inline hname (head?_typeArguments_ungrouped helement)
  | applied hname helement hother =>
      rw [ungrouped_path]
      refine .applied hname (head?_typeArguments_ungrouped helement) fun hinline e l harray => ?_
      obtain ⟨a, ha⟩ := exists_on_of_head? (List.mem_singleton.mpr hinline) helement
      exact hhides ⟨a, _, e, l, ha, hother hinline, harray⟩

/-- With its parentheses, an array is the element itself, and without them it has an element. -/
theorem HidesArray.exists_collectionOf
    (h : t.HidesArray) :
    ∃ inner element length,
      inner.ungrouped = .array element length ∧
      CollectionOf t inner ∧
      CollectionOf t.ungrouped element := by
  obtain ⟨a, inner, element, length, rfl, hother, harray⟩ := h
  have hinline : ∀ b : Application [inlineCollection], b.name.lastSegment = inlineCollection :=
    fun b => List.mem_singleton.mp b.named
  refine ⟨inner, element, length, harray, ?_, ?_⟩
  · have hmem : a.name.lastSegment ∈ collections := by
      rw [hinline a]
      decide
    exact .applied hmem (head?_typeArguments_on a inner) fun _ => hother
  · rw [ungrouped_on, harray]
    exact .inline (hinline a.ungrouped) (head?_typeArguments_on a.ungrouped _)

theorem exists_collectionOf_of_ungrouped
    (h : t.wrapped? = none) (hcollection : CollectionOf t.ungrouped element) :
    ∃ element, CollectionOf t element := by
  cases t with
  | path name arguments =>
      have hpath : ∀ {e : TypeExpr}, name.lastSegment ∈ collections →
          (typeArguments (arguments.map (List.map TypeArgument.ungrouped))).head? = some e →
          ∃ element, CollectionOf (.path name arguments) element := by
        intro e hname he
        refine exists_collectionOf_path hname fun hnil => ?_
        rw [typeArguments_ungrouped, hnil] at he
        cases he
      rw [ungrouped_path] at hcollection
      cases hcollection with
      | applied hname helement _ =>
          exact hpath hname helement
      | inline hname helement =>
          exact hpath (hname ▸ by decide) helement
  | slice element =>
      exact ⟨element, .slice element⟩
  | array element length =>
      exact ⟨element, .array element length⟩
  | reference | paren | group =>
      cases h
  | tuple | pointer | other =>
      cases hcollection

theorem isCollection_ungrouped_iff :
    t.ungrouped.IsCollection ↔ t.IsCollection := by
  rw [IsCollection, IsCollection, unwrap_ungrouped]
  constructor
  · rintro ⟨element, h⟩
    exact exists_collectionOf_of_ungrouped t.wrapped?_unwrap h
  · rintro ⟨element, h⟩
    by_cases hhides : t.unwrap.HidesArray
    · obtain ⟨_, element, _, _, _, helement⟩ := hhides.exists_collectionOf
      exact ⟨element, helement⟩
    · exact ⟨element.ungrouped, h.ungrouped hhides⟩

end Collections

section Content

/-- What a field holds is the same but for parentheses, unless it shows the element of the
inline collection around an array that they hide. -/
theorem content_ungrouped
    (h : nested = true → ¬ t.unwrap.HidesArray) :
    t.ungrouped.content nested = (t.content nested).map (FieldContent.map ungrouped) := by
  by_cases hcollection : t.IsCollection
  · cases nested with
    | false =>
        obtain ⟨element, helement⟩ := hcollection
        obtain ⟨element', helement'⟩ := isCollection_ungrouped_iff.mpr ⟨element, helement⟩
        rw [content_of_collectionOf helement, content_of_collectionOf helement']
        rfl
    | true =>
        obtain ⟨element, helement⟩ := hcollection
        have helement' : CollectionOf t.ungrouped.unwrap element.ungrouped := by
          rw [unwrap_ungrouped]
          exact helement.ungrouped (h rfl)
        rw [content_of_collectionOf helement, content_of_collectionOf helement', unwrap_ungrouped]
        rfl
  · have hcollection' : ¬ t.ungrouped.IsCollection := mt isCollection_ungrouped_iff.mp hcollection
    rw [content, content, element?_eq_none_iff.mpr hcollection,
      element?_eq_none_iff.mpr hcollection']
    simp only [unwrap_ungrouped, typeArgumentCount_ungrouped t.wrapped?_unwrap]
    split
    · rfl
    · cases nested <;> rfl

/-- The array that parentheses hide is taken for the element. -/
theorem content_of_hidesArray
    (h : t.unwrap.HidesArray) :
    ∃ array element length,
      array.ungrouped = .array element length ∧
      t.content true = .ok (.nestedCollection array) ∧
      t.ungrouped.content true = .ok (.nestedCollection element.unwrap) := by
  obtain ⟨inner, element, length, harray, hinner, helement⟩ := h.exists_collectionOf
  rw [← unwrap_ungrouped] at helement
  refine ⟨inner.unwrap, element, length, ?_, content_of_collectionOf hinner,
    content_of_collectionOf helement⟩
  rw [← unwrap_ungrouped, harray]
  exact unwrap_of_not_wrapped rfl

theorem content_ungrouped_ne
    (h : t.unwrap.HidesArray) :
    t.ungrouped.content true ≠ (t.content true).map (FieldContent.map ungrouped) := by
  obtain ⟨array, element, length, harray, hcontent, hcontent'⟩ := content_of_hidesArray h
  rw [hcontent, hcontent']
  intro heq
  have helement : element.unwrap = .array element length := by
    rw [← harray]
    exact FieldContent.nestedCollection.inj (Except.ok.inj heq)
  have hle := element.sizeOf_unwrap_le
  rw [helement, TypeExpr.array.sizeOf_spec] at hle
  omega

/-- Names and kinds do not tell whether an array is hidden. -/
theorem content_ungrouped_kind
    (t : TypeExpr) (nested : Bool) :
    (t.ungrouped.content nested).map (FieldContent.map fun _ => ()) =
      (t.content nested).map (FieldContent.map fun _ => ()) := by
  by_cases h : nested = true ∧ t.unwrap.HidesArray
  · obtain ⟨rfl, hhides⟩ := h
    obtain ⟨_, _, _, _, hcontent, hcontent'⟩ := content_of_hidesArray hhides
    rw [hcontent, hcontent']
    rfl
  · rw [content_ungrouped fun hnested hhides => h ⟨hnested, hhides⟩]
    cases t.content nested with
    | error e =>
        rfl
    | ok held =>
        cases held <;> rfl

end Content

end TypeExpr

namespace ItemField

def ungrouped (f : ItemField) : ItemField :=
  { f with type := f.type.ungrouped }

variable {f : ItemField} {fs : List ItemField}

theorem IsNested.isAnnotated
    (h : f.IsNested) :
    f.IsAnnotated := by
  obtain ⟨o, hsaid, _⟩ := h
  exact hsaid.countingIn_ne_nil

/-- The fields hold the same but for parentheses if those of a nested one hide no array. -/
theorem matches_ungrouped
    (h : f.IsNested → ¬ f.type.unwrap.HidesArray) :
    f.Matches TypeExpr.ungrouped id f.ungrouped where
  name := rfl
  attributes := rfl
  content o hsaid := by
    rw [FieldContent.map_id, Except.map_id]
    exact TypeExpr.content_ungrouped fun hnested => h ⟨o, hsaid, hnested⟩

theorem matches_ungrouped_kind
    (f : ItemField) :
    f.Matches (fun _ => ()) (fun _ => ()) f.ungrouped where
  name := rfl
  attributes := rfl
  content o _ := TypeExpr.content_ungrouped_kind f.type o.nested

theorem Declares.content_eq
    {d : DeclaredField TypeExpr} {o : Options}
    (hd : f.Declares d) (hmap : ¬ f.type.IsMap) (hsaid : o.SaidIn f.attributes) :
    f.type.content o.nested = .ok d.content := by
  obtain ⟨o', hsaid', _, hholds⟩ := hd
  rw [hsaid.eq hsaid']
  exact TypeExpr.content_of_holds hmap hholds

/-- Where the declarations are the same but for parentheses, no nested field hides an array. -/
theorem not_hidesArray_of_declarations
    {ds : List (DeclaredField TypeExpr)}
    (h : declarations fs = .ok ds)
    (h' : declarations (fs.map ungrouped) = .ok (ds.map (DeclaredField.map TypeExpr.ungrouped))) :
    ∀ f ∈ fs, f.IsNested → ¬ f.type.unwrap.HidesArray := by
  induction fs generalizing ds with
  | nil =>
      simp
  | cons f rest ih =>
      rw [List.map_cons] at h'
      rw [List.forall_mem_cons]
      by_cases hf : f.IsAnnotated
      · obtain ⟨d, more, ⟨hmap, hd⟩, hmore, rfl⟩ := (declarations_cons_eq_ok_iff hf).mp h
        obtain ⟨d', more', ⟨hmap', hd'⟩, hmore', heq⟩ :=
          (declarations_cons_eq_ok_iff (f := f.ungrouped) hf).mp h'
        rw [List.map_cons, List.cons.injEq] at heq
        obtain ⟨rfl, rfl⟩ := heq
        refine ⟨?_, ih hmore hmore'⟩
        rintro ⟨o, hsaid, hnested⟩ hhides
        have hcontent := hd.content_eq hmap hsaid
        have hcontent' := hd'.content_eq hmap' hsaid
        rw [hnested] at hcontent hcontent'
        refine TypeExpr.content_ungrouped_ne hhides ?_
        rw [hcontent]
        exact hcontent'
      · rw [declarations_cons_of_not_isAnnotated hf] at h
        rw [declarations_cons_of_not_isAnnotated (f := f.ungrouped) hf] at h'
        exact ⟨fun hnested => absurd hnested.isAnnotated hf, ih h h'⟩

end ItemField

namespace Item

def ungrouped (item : Item) : Item :=
  match item.body with
  | .named fs => item.withFields (fs.map ItemField.ungrouped)
  | _ => item

variable {item : Item} {fs : List ItemField} {s : Shape TypeExpr}

theorem map_shape_withFields_ungrouped
    {κ : Type} {view view' : TypeExpr → κ} (item : Item)
    (h : ∀ f ∈ fs, f.Matches view view' f.ungrouped) :
    (item.withFields (fs.map ItemField.ungrouped)).shape.map (Shape.map view') =
      (item.withFields fs).shape.map (Shape.map view) :=
  item.map_shape_of_matches (List.forall₂_map_right_iff.mpr (List.forall₂_same.mpr h))

theorem map_shape_ungrouped_kind
    (item : Item) :
    item.ungrouped.shape.map (Shape.map fun _ => ()) = item.shape.map (Shape.map fun _ => ()) := by
  rcases item with ⟨name, generics, attributes, body⟩
  cases body with
  | named fs =>
      exact map_shape_withFields_ungrouped ⟨name, generics, attributes, .named fs⟩
        fun f _ => f.matches_ungrouped_kind
  | unit | unnamed | other =>
      rfl

theorem shape_ungrouped_of_error
    {e : DeclarationError}
    (h : item.shape = .error e) :
    item.ungrouped.shape = .error e := by
  rcases cases_of_map_eq_map item.map_shape_ungrouped_kind with ⟨e', he', he⟩ | ⟨_, s, _, hs, _⟩
  · rw [he', ← he, h]
  · rw [h] at hs
    cases hs

theorem shape_withFields_ungrouped_iff
    (item : Item) (hs : (item.withFields fs).shape = .ok s) :
    (item.withFields (fs.map ItemField.ungrouped)).shape = .ok (s.map TypeExpr.ungrouped) ↔
      ∀ f ∈ fs, f.IsNested → ¬ f.type.unwrap.HidesArray := by
  constructor
  · intro h
    exact ItemField.not_hidesArray_of_declarations (shape_eq_ok_iff_parts.mp hs).2.2
      (shape_eq_ok_iff_parts.mp h).2.2
  · intro h
    have hshape := item.map_shape_withFields_ungrouped
      fun f hf => ItemField.matches_ungrouped (h f hf)
    rw [Shape.map_id, Except.map_id, hs] at hshape
    exact hshape

/-- An accepted item declares the same shape but for parentheses iff they hide no array from a
nested field. -/
theorem shape_ungrouped_eq_ok_iff
    (hs : item.shape = .ok s) :
    item.ungrouped.shape = .ok (s.map TypeExpr.ungrouped) ↔
      ∀ f ∈ item.annotatedFields, f.IsNested → ¬ f.type.unwrap.HidesArray := by
  rcases item with ⟨name, generics, attributes, body⟩
  cases body with
  | named fs =>
      refine (shape_withFields_ungrouped_iff ⟨name, generics, attributes, .named fs⟩ hs).trans
        ⟨fun h f hf => ?_, fun h f hf hnested => ?_⟩
      · exact h f (List.mem_filter.mp hf).1
      · have hannotated : f ∈ fs.filter (ItemField.IsAnnotated ·) :=
          List.mem_filter.mpr ⟨hf, decide_eq_true hnested.isAnnotated⟩
        exact h f hannotated hnested
  | unit =>
      have hfields : s.fields = [] :=
        (Except.ok.inj (shape_eq_ok_iff_parts.mp hs).2.2).symm
      have hsame : s.map TypeExpr.ungrouped = s := by
        rcases s with ⟨shapeName, fields⟩
        obtain rfl := hfields
        rfl
      rw [hsame]
      exact iff_of_true hs fun f hf => absurd hf List.not_mem_nil
  | unnamed | other =>
      have hrecord := (fields_eq_ok_iff.mp (shape_eq_ok_iff_parts.mp hs).1).2.1
      simp [IsRecord] at hrecord

/--
Whether an item is accepted, its error, and the names and kinds of its declared fields do
not depend on parentheses and groups, wherever they stand in the types of its fields.  The
shapes that the fields stand for do not either, but for parentheses, iff no nested field
has an inline collection around an array in parentheses.  Such an array is the element
itself with its parentheses, and without them it stands for its own elements.
-/
theorem shape_ungrouped
    (item : Item) :
    item.ungrouped.shape.map (Shape.map fun _ => ()) = item.shape.map (Shape.map fun _ => ()) ∧
    (item.ungrouped.shape = item.shape.map (Shape.map TypeExpr.ungrouped) ↔
      ∀ s, item.shape = .ok s →
        ∀ f ∈ item.annotatedFields, f.IsNested → ¬ f.type.unwrap.HidesArray) ∧
    ∀ t : TypeExpr, t.unwrap.HidesArray →
      ∃ array element length,
        array.ungrouped = .array element length ∧
        t.content true = .ok (.nestedCollection array) ∧
        t.ungrouped.content true = .ok (.nestedCollection element.unwrap) := by
  refine ⟨item.map_shape_ungrouped_kind, ?_, fun t => TypeExpr.content_of_hidesArray⟩
  cases hs : item.shape with
  | error e =>
      simp [shape_ungrouped_of_error hs, Except.map]
  | ok s =>
      refine (shape_ungrouped_eq_ok_iff hs).trans ⟨?_, fun h => h s rfl⟩
      rintro h _ ⟨⟩
      exact h

/-- An item whose only field is a nested one with the inline collection of an argument. -/
def album (argument : TypeExpr) : Item where
  name := "Album"
  generics := []
  attributes := []
  body := .named
    [⟨"images", [⟨⟨"apicalypse", ["apicalypse"]⟩, .options [.word "nested"]⟩],
      .path ⟨"SmallVec", ["SmallVec"]⟩ (some [.type argument])⟩]

/-- The shape that an album of some elements declares. -/
def albumShape (element : TypeExpr) : Shape TypeExpr :=
  ⟨"Album", [⟨"images", .nestedCollection element⟩]⟩

/-- Parentheses inside of the array make no difference. -/
theorem shape_ungrouped_album :
    let image : TypeExpr := .path ⟨"Image", ["Image"]⟩ none
    let item := album (.array (.paren image) "4")
    item.shape = .ok (albumShape image) ∧
    item.ungrouped.shape = .ok (albumShape image) ∧
    ∀ f ∈ item.annotatedFields, f.IsNested → ¬ f.type.unwrap.HidesArray := by
  intro image item
  have hshape : item.shape = .ok (albumShape image) := by
    cbv
  have hungrouped : item.ungrouped.shape = .ok (albumShape image) := by
    cbv
  obtain ⟨_, hiff, _⟩ := shape_ungrouped item
  rw [hshape, hungrouped] at hiff
  exact ⟨hshape, hungrouped, hiff.mp rfl _ rfl⟩

/-- Parentheses around the array make it the element. -/
theorem shape_album_paren :
    let image : TypeExpr := .path ⟨"Image", ["Image"]⟩ none
    let item := album (.paren (.array image "4"))
    item.shape = .ok (albumShape (.array image "4")) ∧
    item.ungrouped.shape = .ok (albumShape image) ∧
    item.ungrouped.shape ≠ item.shape.map (Shape.map TypeExpr.ungrouped) := by
  intro image item
  have hshape : item.shape = .ok (albumShape (.array image "4")) := by
    cbv
  have hungrouped : item.ungrouped.shape = .ok (albumShape image) := by
    cbv
  refine ⟨hshape, hungrouped, ?_⟩
  rw [hshape, hungrouped]
  simp [albumShape, Except.map, Shape.map, DeclaredField.map, FieldContent.map, image,
    TypeExpr.ungrouped]

end Item
end Declaration
end ShapeQuery
