import ShapeQuery.Proofs.Acceptance
import ShapeQuery.Proofs.CheckOutcome

/-!
# The check of a declared shape

An item that is accepted can still declare a shape that fails its check.  Blank names,
collections of other shapes and tables without a field are let through by the
declaration, and the check finds all of them.

The declarations of the shape stand one by one for the annotated fields of the item.
Whatever the check says about a declaration is therefore told about the field it stands
for, and its index counts annotated fields only.
-/

namespace ShapeQuery
namespace Declaration

section Lists

variable {α β : Type} {R : α → β → Prop} {xs : List α} {before after : List β} {y : β}

theorem exists_split_of_forall₂
    (h : List.Forall₂ R xs (before ++ y :: after)) :
    ∃ front x back, xs = front ++ x :: back ∧ List.Forall₂ R front before ∧ R x y := by
  induction before generalizing xs with
  | nil =>
      cases h with
      | cons hx hback =>
          exact ⟨[], _, _, rfl, .nil, hx⟩
  | cons b before ih =>
      cases h with
      | cons hb hrest =>
          obtain ⟨front, x, back, rfl, hfront, hx⟩ := ih hrest
          exact ⟨_ :: front, x, back, rfl, .cons hb hfront, hx⟩

end Lists

namespace ItemField

/-- The field is queried by the name. -/
def QueriedAs (f : ItemField) (name : String) : Prop :=
  ∃ o : Options, o.SaidIn f.attributes ∧ f.NamedBy o name

/-- The field has the option `nested`. -/
def IsNested (f : ItemField) : Prop :=
  ∃ o : Options, o.SaidIn f.attributes ∧ o.nested = true

/-- What an annotated field has to meet for the declared shape to pass its check. -/
structure Fit (f : ItemField) : Prop where
  named : ∀ name, f.QueriedAs name → Text.isBlank name = false
  single : ¬ (f.IsNested ∧ f.type.IsCollection)

/-- The error about a field that is not fit, with the number of annotated fields before it. -/
inductive Refused (f : ItemField) (shape : String) (index : Nat) : ShapeError → Prop
  | blank {name : String} :
      f.QueriedAs name →
      Text.isBlank name = true →
      Refused f shape index (.blankFieldName shape index)
  | collection {name : String} :
      f.QueriedAs name →
      Text.isBlank name = false →
      f.IsNested →
      f.type.IsCollection →
      Refused f shape index (.nestedCollection shape name)

section Identities

variable {ι : Type} (identity : TypeExpr → ι)

/-- What a query selects by the field, whose type may stand for another shape. -/
inductive HasKind (f : ItemField) : FieldKind ι → Prop
  | scalar :
      ¬ f.IsNested →
      ¬ f.type.IsCollection →
      HasKind f .scalar
  | scalarCollection :
      ¬ f.IsNested →
      f.type.IsCollection →
      HasKind f .scalarCollection
  | nested :
      f.IsNested →
      ¬ f.type.IsCollection →
      HasKind f (.nested (identity f.type.unwrap))

/-- The checked field is the one that the item's field stands for. -/
structure Selects (f : ItemField) (field : CheckedField ι) : Prop where
  name : f.QueriedAs field.name
  kind : f.HasKind identity field.kind

/-- The declaration of a field, its references being the shapes that types stand for. -/
def DeclaresAs (f : ItemField) (d : DeclaredField ι) : Prop :=
  ∃ own, f.Declares own ∧ own.map identity = d

variable {identity} {f : ItemField} {field : CheckedField ι}
variable {shape : String} {index : Nat} {e : ShapeError}

section Declaration

variable {d : DeclaredField TypeExpr}

theorem Declares.queriedAs_iff
    {name : String} (h : f.Declares d) :
    f.QueriedAs name ↔ name = d.name := by
  obtain ⟨o, hsaid, hname, _⟩ := h
  constructor
  · rintro ⟨o', hsaid', hname'⟩
    rw [← hsaid.eq hsaid', ← queryName_eq_iff] at hname'
    rw [← hname', queryName_eq_iff.mpr hname]
  · rintro rfl
    exact ⟨o, hsaid, hname⟩

/-- A declaration tells whether its field is nested and whether it is a collection. -/
theorem Declares.content_cases
    (h : f.Declares d) :
    (¬ f.IsNested ∧ ¬ f.type.IsCollection ∧ d.content = .scalar) ∨
    (¬ f.IsNested ∧ f.type.IsCollection ∧ d.content = .scalarCollection) ∨
    (f.IsNested ∧ ¬ f.type.IsCollection ∧ d.content = .nested f.type.unwrap) ∨
    (f.IsNested ∧ f.type.IsCollection ∧ ∃ element, d.content = .nestedCollection element) := by
  rcases d with ⟨name, content⟩
  obtain ⟨o, hsaid, _, hholds⟩ := h
  have hnested : f.IsNested ↔ o.nested = true := by
    constructor
    · rintro ⟨o', hsaid', hnested⟩
      rwa [hsaid.eq hsaid']
    · intro hnested
      exact ⟨o, hsaid, hnested⟩
  rw [hnested]
  generalize o.nested = nested at hholds
  cases hholds with
  | scalar hcollection =>
      exact .inl ⟨Bool.false_ne_true, hcollection, rfl⟩
  | scalarCollection hcollection =>
      exact .inr (.inl ⟨Bool.false_ne_true, hcollection, rfl⟩)
  | nested hcollection =>
      exact .inr (.inr (.inl ⟨rfl, hcollection, rfl⟩))
  | nestedCollection helement =>
      exact .inr (.inr (.inr ⟨rfl, ⟨_, helement⟩, _, rfl⟩))

end Declaration

variable {d : DeclaredField ι}

theorem DeclaresAs.queriedAs_iff
    {name : String} (h : f.DeclaresAs identity d) :
    f.QueriedAs name ↔ name = d.name := by
  obtain ⟨own, hown, rfl⟩ := h
  exact hown.queriedAs_iff

theorem DeclaresAs.nestedCollection_iff
    (h : f.DeclaresAs identity d) :
    (∃ child, d.content = .nestedCollection child) ↔ f.IsNested ∧ f.type.IsCollection := by
  obtain ⟨own, hown, rfl⟩ := h
  rcases hown.content_cases with
    ⟨hnested, _, hcontent⟩ | ⟨hnested, _, hcontent⟩ | ⟨_, hcollection, hcontent⟩ |
    ⟨hnested, hcollection, element, hcontent⟩
  · simp [DeclaredField.map, FieldContent.map, hcontent, hnested]
  · simp [DeclaredField.map, FieldContent.map, hcontent, hnested]
  · simp [DeclaredField.map, FieldContent.map, hcontent, hcollection]
  · simp [DeclaredField.map, FieldContent.map, hcontent, hnested, hcollection]

theorem DeclaresAs.fit_iff
    (h : f.DeclaresAs identity d) :
    d.Fit ↔ f.Fit := by
  constructor
  · rintro ⟨hnamed, hsingle⟩
    refine ⟨fun name hname => ?_, fun hboth => ?_⟩
    · rwa [h.queriedAs_iff.mp hname]
    · obtain ⟨child, hchild⟩ := h.nestedCollection_iff.mpr hboth
      exact hsingle child hchild
  · rintro ⟨hnamed, hsingle⟩
    refine ⟨hnamed d.name (h.queriedAs_iff.mpr rfl), fun child hchild => ?_⟩
    exact hsingle (h.nestedCollection_iff.mp ⟨child, hchild⟩)

theorem DeclaresAs.refused_iff
    (h : f.DeclaresAs identity d) :
    d.Refused shape index e ↔ f.Refused shape index e := by
  constructor
  · intro hrefused
    have hname := h.queriedAs_iff.mpr rfl
    cases hrefused with
    | blank hblank =>
        exact .blank hname hblank
    | collection hblank hcontent =>
        obtain ⟨hnested, hcollection⟩ := h.nestedCollection_iff.mp ⟨_, hcontent⟩
        exact .collection hname hblank hnested hcollection
  · intro hrefused
    cases hrefused with
    | blank hname hblank =>
        rw [h.queriedAs_iff.mp hname] at hblank
        exact .blank hblank
    | collection hname hblank hnested hcollection =>
        rw [h.queriedAs_iff.mp hname] at hblank ⊢
        obtain ⟨child, hchild⟩ := h.nestedCollection_iff.mpr ⟨hnested, hcollection⟩
        exact .collection hblank hchild

theorem DeclaresAs.declared_eq_iff
    (h : f.DeclaresAs identity d) :
    field.declared = d ↔ f.Selects identity field := by
  obtain ⟨⟨declaredName, content⟩, hown, rfl⟩ := h
  rcases field with ⟨name, kind⟩
  constructor
  · intro hfield
    obtain ⟨rfl, hkind⟩ := DeclaredField.mk.inj hfield
    refine ⟨hown.queriedAs_iff.mpr rfl, ?_⟩
    rcases hown.content_cases with
      ⟨hnested, hcollection, rfl⟩ | ⟨hnested, hcollection, rfl⟩ | ⟨hnested, hcollection, rfl⟩ |
      ⟨_, _, element, rfl⟩
    · cases kind <;> cases hkind
      exact .scalar hnested hcollection
    · cases kind <;> cases hkind
      exact .scalarCollection hnested hcollection
    · cases kind <;> cases hkind
      exact .nested hnested hcollection
    · cases kind <;> cases hkind
  · rintro ⟨hname, hkind⟩
    obtain rfl := hown.queriedAs_iff.mp hname
    rcases hown.content_cases with
      ⟨hnested, hcollection, rfl⟩ | ⟨hnested, hcollection, rfl⟩ | ⟨hnested, hcollection, rfl⟩ |
      ⟨hnested, hcollection, element, rfl⟩
    all_goals
      cases hkind <;> first | rfl | contradiction

variable {fs : List ItemField} {ds : List (DeclaredField ι)} {fields : List (CheckedField ι)}

theorem map_declared_eq_iff
    (h : List.Forall₂ (DeclaresAs identity) fs ds) :
    fields.map CheckedField.declared = ds ↔ List.Forall₂ (Selects identity) fs fields := by
  induction h generalizing fields with
  | nil =>
      rw [List.map_eq_nil_iff, List.forall₂_nil_left_iff]
  | cons hd _ ih =>
      cases fields with
      | nil =>
          simp
      | cons field rest =>
          rw [List.map_cons, List.cons.injEq, List.forall₂_cons, hd.declared_eq_iff, ih]

theorem forall_fit_iff
    (h : List.Forall₂ (DeclaresAs identity) fs ds) :
    (∀ d ∈ ds, d.Fit) ↔ ∀ f ∈ fs, f.Fit := by
  induction h with
  | nil =>
      simp
  | cons hd _ ih =>
      rw [List.forall_mem_cons, List.forall_mem_cons, hd.fit_iff, ih]

theorem exists_refused_iff
    (h : List.Forall₂ (DeclaresAs identity) fs ds) :
    (∃ before d after,
      ds = before ++ d :: after ∧ (∀ b ∈ before, b.Fit) ∧ d.Refused shape before.length e) ↔
    ∃ before f after,
      fs = before ++ f :: after ∧ (∀ b ∈ before, b.Fit) ∧ f.Refused shape before.length e := by
  constructor
  · rintro ⟨before, d, after, rfl, hbefore, hd⟩
    obtain ⟨front, f, back, rfl, hfront, hf⟩ := exists_split_of_forall₂ h
    refine ⟨front, f, back, rfl, (forall_fit_iff hfront).mp hbefore, ?_⟩
    rw [hfront.length_eq]
    exact hf.refused_iff.mp hd
  · rintro ⟨before, f, after, rfl, hbefore, hf⟩
    obtain ⟨front, d, back, rfl, hfront, hd⟩ := exists_split_of_forall₂ h.flip
    refine ⟨front, d, back, rfl, (forall_fit_iff hfront.flip).mpr hbefore, ?_⟩
    rw [hfront.length_eq]
    exact (DeclaresAs.refused_iff hd).mpr hf

end Identities

end ItemField

namespace Item

/--
The shape that an item declares passes its check, whatever shapes its types stand for,
iff some field is annotated, no annotated field has a blank name, and none is nested
and a collection.  The checked fields are the annotated ones, and a nested field leads
to the shape of its type without wrappers.  Otherwise the error names the declared
shape, and its index is the number of annotated fields before the one it is about.
-/
theorem check_shape_iff
    {ι : Type} (identity : TypeExpr → ι) (i : ι)
    {item : Item} {s : Shape TypeExpr} (h : item.shape = .ok s) :
    item.Bears s.name ∧
    ((∃ c, (s.map identity).check i = .ok c) ↔
      item.annotatedFields ≠ [] ∧ ∀ f ∈ item.annotatedFields, f.Fit) ∧
    (∀ c, (s.map identity).check i = .ok c →
      c.shape = i ∧
      c.name = s.name ∧
      List.Forall₂ (ItemField.Selects identity) item.annotatedFields c.fields) ∧
    ∀ e, (s.map identity).check i = .error e ↔
      (item.annotatedFields = [] ∧ e = .missingDeclarations s.name) ∨
      ∃ before f after,
        item.annotatedFields = before ++ f :: after ∧
        (∀ b ∈ before, b.Fit) ∧
        f.Refused s.name before.length e := by
  obtain ⟨hbears, hdecls⟩ := (Acceptable.of_shape h).shape_eq_ok_iff.mp h
  have hfields : List.Forall₂ (ItemField.DeclaresAs identity) item.annotatedFields
      (s.map identity).fields :=
    List.forall₂_map_right_iff.mpr (hdecls.imp fun f d hd => ⟨d, hd, rfl⟩)
  have hnil : (s.map identity).fields = [] ↔ item.annotatedFields = [] := by
    rw [← List.length_eq_zero_iff, ← hfields.length_eq, List.length_eq_zero_iff]
  refine ⟨hbears, ?_, fun c hc => ?_, fun e => ?_⟩
  · rw [Shape.exists_check_iff, ne_eq, hnil, ItemField.forall_fit_iff hfields]
  · obtain ⟨_, _, hshape, hname, hdeclared⟩ := Shape.check_eq_ok_iff.mp hc
    exact ⟨hshape, hname, (ItemField.map_declared_eq_iff hfields).mp hdeclared⟩
  · rw [Shape.check_eq_error_iff, hnil, ItemField.exists_refused_iff hfields]
    rfl

/-- An item with a map that is not annotated between two annotated fields, the second one
having the name option. -/
def draft (name : String) : Item where
  name := "Draft"
  generics := []
  attributes := []
  body := .named
    [ ⟨"r#type", [⟨⟨"apicalypse", ["apicalypse"]⟩, .bare⟩], .path ⟨"u64", ["u64"]⟩ none⟩,
      ⟨"cache", [],
        .path ⟨"HashMap", ["HashMap"]⟩
          (some [.type (.path ⟨"u64", ["u64"]⟩ none), .type (.path ⟨"u64", ["u64"]⟩ none)])⟩,
      ⟨"image",
        [⟨⟨"apicalypse", ["apicalypse"]⟩,
          .options [.word "nested", .sign ',', .word "name", .sign '=', .text name]⟩],
        .path ⟨"Option", ["Option"]⟩ (some [.type (.path ⟨"Image", ["Image"]⟩ none)])⟩ ]

/-- The shape that the draft declares. -/
def draftShape (name : String) : Shape TypeExpr :=
  ⟨"Draft", [⟨"type", .scalar⟩, ⟨name, .nested (.path ⟨"Image", ["Image"]⟩ none)⟩]⟩

/-- The draft passes its check with a name, and with a blank one it fails at its second
annotated field. -/
theorem check_shape_iff_draft :
    let identity : TypeExpr → String
      | .path name _ => name.written
      | _ => ""
    let checked : CheckedShape String :=
      ⟨"Draft", "Draft", [⟨"type", .scalar⟩, ⟨"cover", .nested "Image"⟩]⟩
    (draft "cover").shape = .ok (draftShape "cover") ∧
    (draft " ").shape = .ok (draftShape " ") ∧
    ((draftShape "cover").map identity).check "Draft" = .ok checked ∧
    (∀ f ∈ (draft "cover").annotatedFields, f.Fit) ∧
    List.Forall₂ (ItemField.Selects identity) (draft "cover").annotatedFields checked.fields ∧
    ∃ before f after,
      (draft " ").annotatedFields = before ++ f :: after ∧
      (∀ b ∈ before, b.Fit) ∧
      f.Refused "Draft" before.length (.blankFieldName "Draft" 1) := by
  intro identity checked
  have hnamed : (draft "cover").shape = .ok (draftShape "cover") := by
    cbv
  have hblank : (draft " ").shape = .ok (draftShape " ") := by
    cbv
  have hpass : ((draftShape "cover").map identity).check "Draft" = .ok checked := by
    decide
  have hfail : ((draftShape " ").map identity).check "Draft" =
      .error (.blankFieldName "Draft" 1) := by
    decide
  obtain ⟨_, hok, hchecked, _⟩ := check_shape_iff identity "Draft" hnamed
  obtain ⟨_, _, _, herror⟩ := check_shape_iff identity "Draft" hblank
  refine ⟨hnamed, hblank, hpass, (hok.mp ⟨_, hpass⟩).2, (hchecked _ hpass).2.2, ?_⟩
  rcases (herror _).mp hfail with ⟨_, h⟩ | h
  · cases h
  · exact h

end Item
end Declaration
end ShapeQuery
