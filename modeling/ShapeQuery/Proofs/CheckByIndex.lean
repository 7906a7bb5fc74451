import ShapeQuery.Proofs.CheckOutcome
import Mathlib.Data.List.Forall2

/-!
# The check of a shape by indices

The outcome of a check, told by the declarations and their indices alone: what makes a
declaration unfit, which of the unfit ones is reported and how, and what the checked
fields are if all declarations are fit.

**Blank names.**  A name is blank if all its code points are white space, of which
there are twenty-five (`Text.isBlank_iff_codes`).  A name that is not blank is kept
with the white space around it.

**Outcomes.**  `Shape.Outcome` has one case for each way in which a check can end.  It
speaks of one shape, so no other shape of a table has a part in it, the nested ones
included.
-/

namespace ShapeQuery

namespace Text

/-- The code points with the property `White_Space`, one by one. -/
def whiteSpaceCodes : List Nat :=
  [0x9, 0xa, 0xb, 0xc, 0xd, 0x20, 0x85, 0xa0, 0x1680, 0x2000, 0x2001, 0x2002, 0x2003, 0x2004,
    0x2005, 0x2006, 0x2007, 0x2008, 0x2009, 0x200a, 0x2028, 0x2029, 0x202f, 0x205f, 0x3000]

theorem isWhiteSpace_iff_codes
    {c : Char} :
    isWhiteSpace c = true ↔ c.toNat ∈ whiteSpaceCodes := by
  simp only [isWhiteSpace, whiteSpaceRuns, List.any_cons, List.any_nil, Bool.or_false,
    Bool.or_eq_true, Bool.and_eq_true, decide_eq_true_eq, whiteSpaceCodes, List.mem_cons,
    List.not_mem_nil, or_false]
  omega

theorem isBlank_iff_codes
    {s : String} :
    isBlank s = true ↔ ∀ c ∈ s.toList, c.toNat ∈ whiteSpaceCodes := by
  simp only [isBlank, List.all_eq_true, isWhiteSpace_iff_codes]

end Text

section CheckByIndex

variable {ι : Type}

/-- What stands at an index behind entries with a property, told by a split of the list. -/
theorem getElem?_and_forall_lt_iff
    {α : Type} {P : α → Prop} {l : List α} {k : Nat} {a : α} :
    (l[k]? = some a ∧ ∀ j b, j < k → l[j]? = some b → P b) ↔
      ∃ before after, l = before ++ a :: after ∧ before.length = k ∧ ∀ b ∈ before, P b := by
  constructor
  · rintro ⟨ha, hbefore⟩
    obtain ⟨hk, rfl⟩ := List.getElem?_eq_some_iff.mp ha
    refine ⟨l.take k, l.drop (k + 1), ?_, List.length_take_of_le (Nat.le_of_lt hk), fun b hb => ?_⟩
    · rw [← List.drop_eq_getElem_cons hk, List.take_append_drop]
    · obtain ⟨j, hj, rfl⟩ := List.mem_take_iff_getElem.mp hb
      have hjk : j < k := by omega
      exact hbefore j _ hjk (List.getElem?_eq_getElem _)
  · rintro ⟨before, after, rfl, rfl, hbefore⟩
    refine ⟨by simp, fun j b hj hb => ?_⟩
    rw [List.getElem?_append_left hj] at hb
    exact hbefore b (List.mem_of_getElem? hb)

namespace DeclaredField

/-- The name is empty, or all of it is white space. -/
def IsBlank (d : DeclaredField ι) : Prop :=
  ∀ c ∈ d.name.toList, c.toNat ∈ Text.whiteSpaceCodes

/-- The field would hold many records of another shape. -/
def IsShapeCollection (d : DeclaredField ι) : Prop :=
  ∃ child, d.content = .nestedCollection child

variable {d : DeclaredField ι} {shape : String} {index : Nat} {e : ShapeError}

theorem isBlank_iff :
    d.IsBlank ↔ Text.isBlank d.name = true :=
  Text.isBlank_iff_codes.symm

theorem fit_iff :
    d.Fit ↔ ¬ (d.IsBlank ∨ d.IsShapeCollection) := by
  rw [not_or, isBlank_iff, Bool.not_eq_true]
  constructor
  · rintro ⟨hnamed, hsingle⟩
    exact ⟨hnamed, fun ⟨child, hchild⟩ => hsingle child hchild⟩
  · rintro ⟨hnamed, hsingle⟩
    exact ⟨hnamed, fun child hchild => hsingle ⟨child, hchild⟩⟩

theorem refused_iff :
    d.Refused shape index e ↔
      (d.IsBlank ∧ e = .blankFieldName shape index) ∨
      (¬ d.IsBlank ∧ d.IsShapeCollection ∧ e = .nestedCollection shape d.name) := by
  rw [isBlank_iff]
  constructor
  · intro h
    cases h with
    | blank hblank =>
        exact .inl ⟨hblank, rfl⟩
    | collection hblank hcontent =>
        exact .inr ⟨by simp [hblank], ⟨_, hcontent⟩, rfl⟩
  · rintro (⟨hblank, rfl⟩ | ⟨hblank, ⟨child, hcontent⟩, rfl⟩)
    · exact .blank hblank
    · exact .collection (Bool.not_eq_true _ ▸ hblank) hcontent

end DeclaredField

/-- The kind says what the content says. -/
inductive FieldKind.Matches : FieldKind ι → FieldContent ι → Prop
  | scalar : Matches .scalar .scalar
  | scalarCollection : Matches .scalarCollection .scalarCollection
  | nested (child : ι) : Matches (.nested child) (.nested child)

/-- The checked field has the declared name, every character of it, and what was declared. -/
structure CheckedField.StandsFor (field : CheckedField ι) (d : DeclaredField ι) : Prop where
  name : field.name = d.name
  kind : field.kind.Matches d.content

theorem CheckedField.standsFor_iff
    {field : CheckedField ι} {d : DeclaredField ι} :
    field.StandsFor d ↔ field.declared = d := by
  rcases field with ⟨name, kind⟩
  rcases d with ⟨declaredName, content⟩
  constructor
  · rintro ⟨rfl, hkind⟩
    cases hkind <;> rfl
  · intro h
    obtain ⟨rfl, rfl⟩ := DeclaredField.mk.inj h
    refine ⟨rfl, ?_⟩
    cases kind with
    | scalar => exact .scalar
    | scalarCollection => exact .scalarCollection
    | nested child => exact .nested child

theorem CheckedField.map_declared_eq_iff
    {fields : List (CheckedField ι)} {ds : List (DeclaredField ι)} :
    fields.map declared = ds ↔ List.Forall₂ StandsFor fields ds := by
  rw [← List.forall₂_eq_eq_eq, List.forall₂_map_left_iff]
  simp only [← standsFor_iff]

namespace Shape

/-- At the index stands the first declaration that is blank or a collection of a shape. -/
structure FirstUnfit (s : Shape ι) (index : Nat) (d : DeclaredField ι) : Prop where
  found : s.fields[index]? = some d
  unfit : d.IsBlank ∨ d.IsShapeCollection
  earlier : ∀ j b, j < index → s.fields[j]? = some b → ¬ (b.IsBlank ∨ b.IsShapeCollection)

/-- How the check of a shape ends. -/
inductive Outcome (i : ι) (s : Shape ι) : Except ShapeError (CheckedShape ι) → Prop
  | missing :
      s.fields = [] →
      Outcome i s (.error (.missingDeclarations s.name))
  | blank {index : Nat} {d : DeclaredField ι} :
      s.FirstUnfit index d →
      d.IsBlank →
      Outcome i s (.error (.blankFieldName s.name index))
  | collection {index : Nat} {d : DeclaredField ι} :
      s.FirstUnfit index d →
      ¬ d.IsBlank →
      Outcome i s (.error (.nestedCollection s.name d.name))
  | passed {fields : List (CheckedField ι)} :
      s.fields ≠ [] →
      (∀ d ∈ s.fields, ¬ (d.IsBlank ∨ d.IsShapeCollection)) →
      List.Forall₂ CheckedField.StandsFor fields s.fields →
      Outcome i s (.ok ⟨i, s.name, fields⟩)

variable {s : Shape ι} {i : ι} {e : ShapeError} {c : CheckedShape ι}
variable {index : Nat} {d : DeclaredField ι}

theorem firstUnfit_iff :
    s.FirstUnfit index d ↔
      (∃ before after,
        s.fields = before ++ d :: after ∧ before.length = index ∧ ∀ b ∈ before, b.Fit) ∧
      (d.IsBlank ∨ d.IsShapeCollection) := by
  simp only [DeclaredField.fit_iff, ← getElem?_and_forall_lt_iff]
  constructor
  · rintro ⟨hfound, hunfit, hearlier⟩
    exact ⟨⟨hfound, hearlier⟩, hunfit⟩
  · rintro ⟨⟨hfound, hearlier⟩, hunfit⟩
    exact ⟨hfound, hunfit, hearlier⟩

/-- What is refused behind fit declarations is the first unfit one. -/
theorem exists_refused_iff_firstUnfit :
    (∃ before d after,
      s.fields = before ++ d :: after ∧
      (∀ b ∈ before, b.Fit) ∧
      d.Refused s.name before.length e) ↔
    ∃ index d, s.FirstUnfit index d ∧ d.Refused s.name index e := by
  constructor
  · rintro ⟨before, d, after, hfields, hbefore, hd⟩
    have hunfit : d.IsBlank ∨ d.IsShapeCollection :=
      not_not.mp fun h => hd.not_fit (DeclaredField.fit_iff.mpr h)
    exact ⟨before.length, d,
      firstUnfit_iff.mpr ⟨⟨before, after, hfields, rfl, hbefore⟩, hunfit⟩, hd⟩
  · rintro ⟨_, d, hfirst, hd⟩
    obtain ⟨⟨before, after, hfields, rfl, hbefore⟩, _⟩ := firstUnfit_iff.mp hfirst
    exact ⟨before, d, after, hfields, hbefore, hd⟩

theorem check_eq_error_iff_outcome :
    s.check i = .error e ↔ s.Outcome i (.error e) := by
  rw [check_eq_error_iff, exists_refused_iff_firstUnfit]
  constructor
  · rintro (⟨hnil, rfl⟩ | ⟨index, d, hfirst, hd⟩)
    · exact .missing hnil
    · rcases DeclaredField.refused_iff.mp hd with ⟨hblank, rfl⟩ | ⟨hblank, _, rfl⟩
      · exact .blank hfirst hblank
      · exact .collection hfirst hblank
  · intro h
    cases h with
    | missing hnil =>
        exact .inl ⟨hnil, rfl⟩
    | blank hfirst hblank =>
        exact .inr ⟨_, _, hfirst, DeclaredField.refused_iff.mpr (.inl ⟨hblank, rfl⟩)⟩
    | collection hfirst hblank =>
        have hcollection := hfirst.unfit.resolve_left hblank
        exact .inr ⟨_, _, hfirst,
          DeclaredField.refused_iff.mpr (.inr ⟨hblank, hcollection, rfl⟩)⟩

theorem check_eq_ok_iff_outcome :
    s.check i = .ok c ↔ s.Outcome i (.ok c) := by
  simp only [check_eq_ok_iff, CheckedField.map_declared_eq_iff, DeclaredField.fit_iff]
  constructor
  · rintro ⟨hne, hfit, rfl, hname, hfields⟩
    rcases c with ⟨shape, name, fields⟩
    obtain rfl := hname
    exact .passed hne hfit hfields
  · intro h
    cases h with
    | passed hne hfit hfields =>
        exact ⟨hne, hfit, rfl, rfl, hfields⟩

end Shape

/--
The check of a shape ends as its declarations say.  Without any, they are missing.
Otherwise the first one that is blank or a collection of a shape gives the error, with
its index if it is blank and else with its name; and if there is none, the checked
fields stand for the declarations one by one.  A shape has the same outcome in every
table, whatever the shapes nested in it are there.
-/
theorem ShapeTable.check_eq_iff_outcome
    (t : ShapeTable ι) (i : ι) :
    (∀ result, t.check i = result ↔ (t.shape i).Outcome i result) ∧
    ((∃ name, t.check i = .error (.missingDeclarations name)) ↔ (t.shape i).fields = []) ∧
    ∀ t' : ShapeTable ι, t'.shape i = t.shape i → t'.check i = t.check i := by
  refine ⟨fun result => ?_, ?_, fun t' h => ?_⟩
  · cases result with
    | error e => exact Shape.check_eq_error_iff_outcome
    | ok c => exact Shape.check_eq_ok_iff_outcome
  · constructor
    · rintro ⟨name, h⟩
      cases Shape.check_eq_error_iff_outcome.mp h with
      | missing hnil => exact hnil
    · intro hnil
      exact ⟨_, Shape.check_of_nil hnil⟩
  · rw [check, check, h]

end CheckByIndex
end ShapeQuery
