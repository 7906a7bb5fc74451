import ShapeQuery.Declaration
import ShapeQuery.Proofs.OptionGrammar
import Mathlib.Data.List.Forall2

/-!
# Items whose fields have other types

The type of a field counts only by what a field of it holds.  So where the fields of two
items correspond and hold the same, the items are accepted or refused alike and declare
the same shape.

What is held may be an element type, and the types of two items may differ in details that
are of no interest.  "The same" is therefore meant under a view of the element types for
each of the two items.
-/

namespace ShapeQuery

section Identity

variable {ι : Type}

theorem FieldContent.map_id :
    FieldContent.map (id : ι → ι) = id := by
  funext c
  cases c <;> rfl

theorem DeclaredField.map_id :
    DeclaredField.map (id : ι → ι) = id := by
  funext d
  exact congrArg (DeclaredField.mk d.name) (congrFun FieldContent.map_id d.content)

theorem Shape.map_id :
    Shape.map (id : ι → ι) = id := by
  funext s
  have hfields : s.fields.map (DeclaredField.map id) = s.fields := by
    rw [DeclaredField.map_id, List.map_id]
  exact congrArg (Shape.mk s.name) hfields

end Identity

namespace Declaration

/-- Two results that look the same are the same error or two successes that look the same. -/
theorem cases_of_map_eq_map
    {ε α β γ : Type} {f : α → γ} {g : β → γ} {x : Except ε α} {y : Except ε β}
    (h : x.map f = y.map g) :
    (∃ e, x = .error e ∧ y = .error e) ∨ ∃ a b, x = .ok a ∧ y = .ok b ∧ f a = g b := by
  cases x with
  | error e =>
      cases y with
      | error e' =>
          cases h
          exact .inl ⟨e, rfl, rfl⟩
      | ok b =>
          cases h
  | ok a =>
      cases y with
      | error e =>
          cases h
      | ok b =>
          exact .inr ⟨a, b, rfl, rfl, Except.ok.inj h⟩

variable {κ : Type} {view view' : TypeExpr → κ}

namespace ItemField

/-- The fields differ in their types only, and in these views they hold the same. -/
structure Matches (view view' : TypeExpr → κ) (f f' : ItemField) : Prop where
  name : f'.name = f.name
  attributes : f'.attributes = f.attributes
  content : ∀ o : Options, o.SaidIn f.attributes →
    (f'.type.content o.nested).map (FieldContent.map view') =
      (f.type.content o.nested).map (FieldContent.map view)

variable {f f' : ItemField} {fs fs' : List ItemField}

theorem Matches.map_declaration?
    (h : f.Matches view view' f') :
    f'.declaration?.map (Option.map (DeclaredField.map view')) =
      f.declaration?.map (Option.map (DeclaredField.map view)) := by
  unfold declaration?
  rw [h.attributes]
  cases hfound : Options.ofAttributes f.attributes with
  | error e =>
      rfl
  | ok found =>
      cases found with
      | none =>
          rfl
      | some o =>
          have hname : f'.queryName o = f.queryName o := by
            rw [queryName, queryName, h.name]
          have hcontent := h.content o (Options.ofAttributes_eq_ok_some_iff.mp hfound)
          rcases cases_of_map_eq_map hcontent with ⟨e, he', he⟩ | ⟨held', held, hok', hok, hheld⟩
          · simp only [he', he]
            rfl
          · simp only [hok', hok, Except.map, Option.map, DeclaredField.map, hname, hheld]

/-- Fields that match one by one are read to the same declarations, or to the same error. -/
theorem map_declarations_of_matches
    (h : List.Forall₂ (Matches view view') fs fs') :
    (declarations fs').map (List.map (DeclaredField.map view')) =
      (declarations fs).map (List.map (DeclaredField.map view)) := by
  induction h with
  | nil =>
      rfl
  | cons hf _ ih =>
      rw [declarations, declarations]
      rcases cases_of_map_eq_map hf.map_declaration? with
        ⟨e, he', he⟩ | ⟨found', found, hok', hok, hfound⟩
      · simp only [he', he]
        rfl
      · rcases cases_of_map_eq_map ih with ⟨e, he', he⟩ | ⟨more', more, hmore', hmore, hrest⟩
        · simp only [hok', hok, he', he]
          rfl
        · have hhead : found'.toList.map (DeclaredField.map view') =
              found.toList.map (DeclaredField.map view) := by
            rw [← Option.toList_map, ← Option.toList_map, hfound]
          simp only [hok', hok, hmore', hmore, Except.map, List.map_append, hhead, hrest]

end ItemField

namespace Item

/-- The item with other fields. -/
def withFields (item : Item) (fs : List ItemField) : Item :=
  { item with body := .named fs }

/-- Items with matching fields declare the same shape, or are refused with the same error. -/
theorem map_shape_of_matches
    (item : Item) {fs fs' : List ItemField}
    (h : List.Forall₂ (ItemField.Matches view view') fs fs') :
    (item.withFields fs').shape.map (Shape.map view') =
      (item.withFields fs).shape.map (Shape.map view) := by
  by_cases hgenerics : item.generics = []
  · have hfields : ∀ fs, (item.withFields fs).fields = .ok fs :=
      fun fs => if_neg (not_not.mpr hgenerics)
    have hname : ∀ fs, (item.withFields fs).shapeName = item.shapeName := fun _ => rfl
    simp only [shape, hfields, hname]
    cases item.shapeName with
    | error e =>
        rfl
    | ok name =>
        rcases cases_of_map_eq_map (ItemField.map_declarations_of_matches h) with
          ⟨e, he', he⟩ | ⟨decls', decls, hok', hok, hdecls⟩
        · simp only [he', he]
          rfl
        · simp only [hok', hok, Except.map, Shape.map, hdecls]
  · have hfields : ∀ fs, (item.withFields fs).fields = .error .genericItem :=
      fun fs => if_pos hgenerics
    simp only [shape, hfields]
    rfl

end Item
end Declaration
end ShapeQuery
