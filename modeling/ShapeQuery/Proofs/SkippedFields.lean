import ShapeQuery.Proofs.Acceptance
import ShapeQuery.Proofs.RetypedFields
import ShapeQuery.Proofs.WalkSteps
import ShapeQuery.Registry.Call
import Mathlib.Logic.Relation

/-!
# Fields without an annotation

The reading of fields skips those without an annotation before it looks at anything else
of them.  They may stand anywhere and be of any type, maps included: an item with them and
the item without them declare the same shape or are refused with the same error.

**Parts.**  The fields of an item can be read in parts.  What is declared by all of them is
what the parts declare, one after another, and the first part that is refused gives the
error (`shape_withFields_append`).

**Tables.**  The answers of a registry depend on the shapes of a table alone
(`Registry.run_congr`).  So fields that are skipped leave no trace in checked shapes, in
the indices of errors and in field paths either.
-/

namespace ShapeQuery

section SameShapes

variable {ι : Type} [DecidableEq ι] {t t' : ShapeTable ι}

/-- Walks over the same shapes are the same, however the shapes are listed. -/
theorem Walk.walk_congr
    (h : ∀ i, t'.shape i = t.shape i) :
    (∀ (w : Walk ι) i, w.visit t' i = w.visit t i) ∧
    (∀ (w : Walk ι) own, w.fields t' own = w.fields t own) := by
  have henter : ∀ (w : Walk ι) i, w.enter t' i = w.enter t i := by
    intro w i
    simp only [enter, Registry.resolve, ShapeTable.check, h]
  apply walk_induction t
  case visit =>
    intro w i ih
    cases hvisit : w.visit t i with
    | failed e stopped =>
        simp only [visit_eq_failed, henter]
        rcases visit_eq_failed.mp hvisit with hrefused | ⟨own, inside, hinside, hfields⟩
        · exact .inl hrefused
        · exact .inr ⟨own, inside, hinside, (ih own inside hinside).trans hfields⟩
    | back home hhome =>
        simp only [visit_eq_back, henter]
        obtain ⟨own, inside, inner, hinner, hinside, hfields, rfl⟩ := visit_eq_back.mp hvisit
        exact ⟨own, inside, inner, hinner, hinside, (ih own inside hinside).trans hfields, rfl⟩
  case nil =>
    intro w
    rw [fields_nil, fields_nil]
  case leaf =>
    intro w f rest hleaf ih
    rw [fields_leaf t' w rest hleaf, fields_leaf t w rest hleaf, ih]
  case nested =>
    intro w name child rest ihvisit ihrest
    cases houtcome : w.fields t (⟨name, .nested child⟩ :: rest) with
    | failed e stopped =>
        rw [fields_nested_eq_failed]
        rcases fields_nested_eq_failed.mp houtcome with hfailed | ⟨mid, hmid, hback, hrest⟩
        · exact .inl (ihvisit.trans hfailed)
        · exact .inr ⟨mid, hmid, ihvisit.trans hback, (ihrest mid hmid hback).trans hrest⟩
    | back home hhome =>
        rw [fields_nested_eq_back]
        obtain ⟨mid, hmid, hback, hrest⟩ := fields_nested_eq_back.mp houtcome
        exact ⟨mid, hmid, ihvisit.trans hback, (ihrest mid hmid hback).trans hrest⟩

namespace Registry

theorem answer_congr
    (h : ∀ i, t'.shape i = t.shape i) (r : Registry ι) (call : RegistryCall ι) :
    r.answer t' call = r.answer t call := by
  have hpaths : ∀ i, r.paths t' i = r.paths t i := by
    intro i
    simp only [paths, (Walk.walk_congr h).1]
  cases call with
  | resolve i =>
      simp only [answer, resolve, ShapeTable.check, h]
  | check i =>
      simp only [answer, ShapeTable.check, h]
  | fieldList i =>
      simp only [answer, fieldList, hpaths]
  | paths i =>
      simp only [answer, hpaths]

/-- Tables of the same shapes get the same answers. -/
theorem run_congr
    (h : ∀ i, t'.shape i = t.shape i) (r : Registry ι) (calls : List (RegistryCall ι)) :
    r.run t' calls = r.run t calls := by
  induction calls generalizing r with
  | nil =>
      rfl
  | cons call rest ih =>
      simp only [run, answer_congr h, ih]

end Registry
end SameShapes

namespace Declaration

namespace ItemField

/-- Fields are read in parts, and the first part that is refused gives the error. -/
theorem declarations_append
    (fs gs : List ItemField) :
    declarations (fs ++ gs) =
      match declarations fs with
      | .error e => .error e
      | .ok ds => (declarations gs).map (ds ++ ·) := by
  induction fs with
  | nil =>
      rw [List.nil_append, declarations]
      cases declarations gs <;> rfl
  | cons f rest ih =>
      rw [List.cons_append, declarations, declarations, ih]
      cases f.declaration? with
      | error e =>
          rfl
      | ok found =>
          cases declarations rest with
          | error e =>
              rfl
          | ok ds =>
              cases declarations gs with
              | error e =>
                  rfl
              | ok ds' =>
                  simp only [Except.map, List.append_assoc]

/-- A field without an annotation is skipped, wherever it stands. -/
theorem declarations_skip
    (before after : List ItemField) {f : ItemField} (hf : ¬ f.IsAnnotated) :
    declarations (before ++ f :: after) = declarations (before ++ after) := by
  rw [declarations_append, declarations_append, declarations_cons_of_not_isAnnotated hf]

end ItemField

namespace Item

/-- The second item has a field more than the first one, which is not annotated. -/
inductive Pads : Item → Item → Prop
  | intro (item : Item) (before : List ItemField) (f : ItemField) (after : List ItemField) :
      ¬ f.IsAnnotated →
      Pads (item.withFields (before ++ after)) (item.withFields (before ++ f :: after))

variable {item item' : Item} {fs gs : List ItemField} {s : Shape TypeExpr}

/-- The parts of an item other than its fields are judged before the fields. -/
theorem shape_withFields
    (item : Item) (fs : List ItemField) :
    (item.withFields fs).shape =
      if item.generics ≠ [] then .error .genericItem
      else
        match item.shapeName with
        | .error e => .error e
        | .ok name => (ItemField.declarations fs).map (Shape.mk name) := by
  by_cases hgenerics : item.generics = []
  · have hfields : (item.withFields fs).fields = .ok fs := if_neg (not_not.mpr hgenerics)
    have hname : (item.withFields fs).shapeName = item.shapeName := rfl
    rw [if_neg (not_not.mpr hgenerics)]
    simp only [shape, hfields, hname]
    cases item.shapeName with
    | error e =>
        rfl
    | ok name =>
        cases ItemField.declarations fs <;> rfl
  · have hfields : (item.withFields fs).fields = .error .genericItem := if_pos hgenerics
    rw [if_pos hgenerics]
    simp only [shape, hfields]

/-- What an item declares by all of its fields is what it declares by the parts of them. -/
theorem shape_withFields_append
    (item : Item) (fs gs : List ItemField) :
    (item.withFields (fs ++ gs)).shape =
      match (item.withFields fs).shape with
      | .error e => .error e
      | .ok left =>
        (item.withFields gs).shape.map fun right => ⟨left.name, left.fields ++ right.fields⟩ := by
  simp only [shape_withFields, ItemField.declarations_append]
  split
  next =>
    rfl
  next =>
    cases item.shapeName with
    | error e =>
        rfl
    | ok name =>
        cases ItemField.declarations fs with
        | error e =>
            rfl
        | ok ds =>
            cases ItemField.declarations gs <;> rfl

theorem name_eq_of_withFields
    {left right : Shape TypeExpr}
    (hleft : (item.withFields fs).shape = .ok left)
    (hright : (item.withFields gs).shape = .ok right) :
    right.name = left.name := by
  have hname : (item.withFields gs).shapeName = .ok left.name := (shape_eq_ok_iff_parts.mp hleft).2.1
  have hname' := (shape_eq_ok_iff_parts.mp hright).2.1
  rw [hname'] at hname
  exact Except.ok.inj hname

theorem shape_withFields_append_eq_ok_iff :
    (item.withFields (fs ++ gs)).shape = .ok s ↔
      ∃ left right,
        (item.withFields fs).shape = .ok left ∧
        (item.withFields gs).shape = .ok right ∧
        left.name = s.name ∧
        right.name = s.name ∧
        s.fields = left.fields ++ right.fields := by
  rw [shape_withFields_append]
  cases hleft : (item.withFields fs).shape with
  | error e =>
      simp
  | ok left =>
      cases hright : (item.withFields gs).shape with
      | error e =>
          simp [Except.map]
      | ok right =>
          have hright' := name_eq_of_withFields hleft hright
          simp only [Except.map, Except.ok.injEq]
          constructor
          · rintro rfl
            exact ⟨left, right, rfl, rfl, rfl, hright', rfl⟩
          · rintro ⟨_, _, rfl, rfl, hname, _, hfields⟩
            rcases s with ⟨name, fields⟩
            rw [hname, ← hfields]

theorem shape_withFields_append_eq_error_iff
    {e : DeclarationError} :
    (item.withFields (fs ++ gs)).shape = .error e ↔
      (item.withFields fs).shape = .error e ∨
      (∃ left, (item.withFields fs).shape = .ok left) ∧ (item.withFields gs).shape = .error e := by
  rw [shape_withFields_append]
  cases (item.withFields fs).shape with
  | error e =>
      simp
  | ok left =>
      cases (item.withFields gs).shape <;> simp [Except.map]

theorem Pads.shape_eq
    (h : Pads item item') :
    item'.shape = item.shape := by
  cases h with
  | intro item before f after hf =>
      rw [shape_withFields, shape_withFields, ItemField.declarations_skip before after hf]

/-- Fields without an annotation may be put in and left out any number of times. -/
theorem shape_eq_of_eqvGen
    (h : Relation.EqvGen Pads item item') :
    item'.shape = item.shape := by
  induction h with
  | rel _ _ hpads =>
      exact hpads.shape_eq
  | refl =>
      rfl
  | symm _ _ _ ih =>
      exact ih.symm
  | trans _ _ _ _ _ ih ih' =>
      exact ih'.trans ih

end Item

/-- The table has the shapes that items declare, whose types stand for shapes of the table. -/
def DeclaredBy {ι : Type} (t : ShapeTable ι) (identity : TypeExpr → ι) (items : ι → Item) : Prop :=
  ∀ i, ∃ s, (items i).shape = .ok s ∧ t.shape i = s.map identity

/-- Items that differ in skipped fields declare the same shapes of a table. -/
theorem DeclaredBy.shape_eq
    {ι : Type} {t t' : ShapeTable ι} {identity : TypeExpr → ι} {items items' : ι → Item}
    (ht : DeclaredBy t identity items) (ht' : DeclaredBy t' identity items')
    (h : ∀ i, Relation.EqvGen Item.Pads (items i) (items' i)) (i : ι) :
    t'.shape i = t.shape i := by
  obtain ⟨s, hs, hshape⟩ := ht i
  obtain ⟨s', hs', hshape'⟩ := ht' i
  rw [Item.shape_eq_of_eqvGen (h i), hs, Except.ok.injEq] at hs'
  rw [hshape, hshape', hs']

/--
A field without an annotation, at any place among the fields of an item, changes nothing:
the item declares the same shape or is refused with the same error.  Where items declare
the shapes of a table, any number of such fields can be put into the items or taken out of
them, and all calls on a registry get the same answers and leave the same registry.  In
general the fields of an item may be divided: they are accepted iff both parts are, and
declare what the parts declare, one after the other; and otherwise the first part that is
refused gives the error.
-/
theorem skipped_fields_transparent :
    (∀ (item : Item) before (f : ItemField) after, ¬ f.IsAnnotated →
      (item.withFields (before ++ f :: after)).shape =
        (item.withFields (before ++ after)).shape) ∧
    (∀ (ι : Type) [DecidableEq ι] (identity : TypeExpr → ι) (items items' : ι → Item)
      (t t' : ShapeTable ι),
      DeclaredBy t identity items →
      DeclaredBy t' identity items' →
      (∀ i, Relation.EqvGen Item.Pads (items i) (items' i)) →
      ∀ calls, Registry.empty.run t' calls = Registry.empty.run t calls) ∧
    ∀ (item : Item) fs gs,
      (∀ s, (item.withFields (fs ++ gs)).shape = .ok s ↔
        ∃ left right,
          (item.withFields fs).shape = .ok left ∧
          (item.withFields gs).shape = .ok right ∧
          left.name = s.name ∧
          right.name = s.name ∧
          s.fields = left.fields ++ right.fields) ∧
      ∀ e, (item.withFields (fs ++ gs)).shape = .error e ↔
        (item.withFields fs).shape = .error e ∨
        (∃ left, (item.withFields fs).shape = .ok left) ∧
          (item.withFields gs).shape = .error e := by
  refine ⟨fun item before f after hf => ?_, ?_, fun item fs gs => ⟨fun s => ?_, fun e => ?_⟩⟩
  · exact (Item.Pads.intro item before f after hf).shape_eq
  · intro ι _ identity items items' t t' ht ht' hpads calls
    exact Registry.run_congr (ht.shape_eq ht' hpads) .empty calls
  · exact Item.shape_withFields_append_eq_ok_iff
  · exact Item.shape_withFields_append_eq_error_iff

end Declaration
end ShapeQuery
