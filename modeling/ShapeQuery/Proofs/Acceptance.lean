import ShapeQuery.Proofs.OptionGrammar
import ShapeQuery.Proofs.TypeContent
import Mathlib.Data.List.Forall2

/-!
# Accepted items

What an item must be to declare a shape, and which shape it declares then.

**Fields.**  Reading the fields skips those without an annotation and may stop at any
other one.  It comes to the end iff every single field is acceptable, and then the
declarations stand for the annotated fields one by one (`declarations_eq_ok_iff`).

**Items.**  The parts of an item are read one after another, but whether it is accepted
depends on no order: each part is acceptable or not by itself.
-/

namespace ShapeQuery
namespace Declaration

/-- At most one attribute counts, and it lists options. -/
def WellAttributed (attributes : List Attribute) : Prop :=
  (countingIn attributes).length ≤ 1 ∧
  ∀ a ∈ countingIn attributes, ∃ written, a.form.Lists written

section Attributes

variable {attributes : List Attribute} {o : Options}

theorem WellAttributed.of_countingIn_eq_nil
    (h : countingIn attributes = []) :
    WellAttributed attributes := by
  simp [WellAttributed, h]

theorem Options.SaidIn.wellAttributed
    (h : o.SaidIn attributes) :
    WellAttributed attributes := by
  obtain ⟨a, written, ha, hlists, _⟩ := h
  refine ⟨ha ▸ Nat.le_refl 1, fun b hb => ?_⟩
  rw [ha, List.mem_singleton] at hb
  subst hb
  exact ⟨written, hlists⟩

theorem WellAttributed.exists_saidIn
    (h : WellAttributed attributes)
    (hne : countingIn attributes ≠ []) :
    ∃ o : Options, o.SaidIn attributes := by
  obtain ⟨hlength, hlists⟩ := h
  obtain ⟨a, ha⟩ := List.length_eq_one_iff.mp
    (Nat.le_antisymm hlength (List.length_pos_iff.mpr hne))
  obtain ⟨written, hwritten⟩ := hlists a (by rw [ha]; exact List.mem_singleton_self a)
  exact ⟨Options.ofWritten written, a, written, ha, hwritten, rfl⟩

theorem Options.SaidIn.eq
    {o' : Options} (h : o.SaidIn attributes) (h' : o'.SaidIn attributes) :
    o = o' := by
  rw [← ofAttributes_eq_ok_some_iff] at h h'
  rw [h, Except.ok.injEq, Option.some.injEq] at h'
  exact h'

end Attributes

/-- The part of a written name that is behind all marks of a raw identifier. -/
def Bare (written bare : String) : Prop :=
  ∃ marks,
    written.toList = (List.replicate marks ['r', '#']).flatten ++ bare.toList ∧
    ¬ ['r', '#'] <+: bare.toList

theorem withoutRawMarks_eq_iff
    {cs bare : List Char} :
    withoutRawMarks cs = bare ↔
      ∃ marks, cs = (List.replicate marks ['r', '#']).flatten ++ bare ∧ ¬ ['r', '#'] <+: bare := by
  constructor
  · rintro rfl
    fun_induction withoutRawMarks cs with
    | case1 rest ih =>
        obtain ⟨marks, hrest, hbare⟩ := ih
        refine ⟨marks + 1, ?_, hbare⟩
        rw [List.replicate_succ, List.flatten_cons, List.append_assoc, ← hrest]
        rfl
    | case2 cs hcs =>
        refine ⟨0, rfl, ?_⟩
        rintro ⟨rest, rfl⟩
        exact hcs rest rfl
  · rintro ⟨marks, rfl, hbare⟩
    induction marks with
    | zero =>
        simp only [List.replicate_zero, List.flatten_nil, List.nil_append]
        unfold withoutRawMarks
        split
        next rest =>
          exact absurd (List.prefix_append ['r', '#'] rest) hbare
        next =>
          rfl
    | succ marks ih =>
        rw [List.replicate_succ, List.flatten_cons, List.append_assoc]
        exact ih

theorem ofList_withoutRawMarks_eq_iff
    {written bare : String} :
    String.ofList (withoutRawMarks written.toList) = bare ↔ Bare written bare := by
  rw [Bare, ← withoutRawMarks_eq_iff, ← String.toList_inj, String.toList_ofList]

namespace ItemField

/-- The field carries an attribute that counts. -/
def IsAnnotated (f : ItemField) : Prop :=
  countingIn f.attributes ≠ []

instance (f : ItemField) : Decidable f.IsAnnotated :=
  inferInstanceAs (Decidable (_ ≠ _))

/-- What a field has to meet for its item to declare a shape. -/
structure Acceptable (f : ItemField) : Prop where
  attributed : WellAttributed f.attributes
  unmapped : f.IsAnnotated → ¬ f.type.IsMap

/-- The name that options give a field: theirs, or else its own name without marks. -/
inductive NamedBy (f : ItemField) (o : Options) : String → Prop
  | option {name : String} :
      o.name = some name →
      NamedBy f o name
  | bare {name : String} :
      o.name = none →
      Bare f.name name →
      NamedBy f o name

/-- What an annotated field stands for in the declared shape. -/
def Declares (f : ItemField) (d : DeclaredField TypeExpr) : Prop :=
  ∃ o : Options, o.SaidIn f.attributes ∧ f.NamedBy o d.name ∧ f.type.Holds o.nested d.content

variable {f : ItemField} {fs : List ItemField} {o : Options} {d : DeclaredField TypeExpr}
variable {ds : List (DeclaredField TypeExpr)}

theorem queryName_eq_iff
    {name : String} :
    f.queryName o = name ↔ f.NamedBy o name := by
  cases hname : o.name with
  | some given =>
      rw [queryName, hname, Option.getD_some]
      constructor
      · rintro rfl
        exact .option hname
      · intro h
        cases h with
        | option h =>
            exact Option.some.inj (hname.symm.trans h)
        | bare h _ =>
            cases hname.symm.trans h
  | none =>
      rw [queryName, hname, Option.getD_none, ofList_withoutRawMarks_eq_iff]
      constructor
      · intro h
        exact .bare hname h
      · intro h
        cases h with
        | option h =>
            cases hname.symm.trans h
        | bare _ h =>
            exact h

theorem declaration?_eq_ok_none_iff :
    f.declaration? = .ok none ↔ ¬ f.IsAnnotated := by
  rw [IsAnnotated, not_not, ← Options.ofAttributes_eq_ok_none_iff]
  unfold declaration?
  split
  next hattributes =>
    simp [hattributes]
  next hattributes =>
    simp [hattributes]
  next o hattributes =>
    split <;> simp [hattributes]

theorem declaration?_eq_ok_some_iff :
    f.declaration? = .ok (some d) ↔ ¬ f.type.IsMap ∧ f.Declares d := by
  constructor
  · intro h
    unfold declaration? at h
    split at h
    next =>
      cases h
    next =>
      cases h
    next o hattributes =>
      split at h
      next =>
        cases h
      next held hheld =>
        cases h
        obtain ⟨hmap, hholds⟩ := TypeExpr.content_eq_ok_iff.mp hheld
        have hsaid := Options.ofAttributes_eq_ok_some_iff.mp hattributes
        exact ⟨hmap, o, hsaid, queryName_eq_iff.mp rfl, hholds⟩
  · rintro ⟨hmap, o, hsaid, hname, hholds⟩
    rw [declaration?, Options.ofAttributes_eq_ok_some_iff.mpr hsaid]
    simp only [TypeExpr.content_eq_ok_iff.mpr ⟨hmap, hholds⟩, queryName_eq_iff.mpr hname]

theorem Acceptable.of_not_isAnnotated
    (h : ¬ f.IsAnnotated) :
    f.Acceptable :=
  ⟨.of_countingIn_eq_nil (not_not.mp h), fun hf => absurd hf h⟩

theorem Acceptable.of_declares
    (hmap : ¬ f.type.IsMap) (h : f.Declares d) :
    f.Acceptable := by
  obtain ⟨o, hsaid, _⟩ := h
  exact ⟨hsaid.wellAttributed, fun _ => hmap⟩

theorem Acceptable.exists_declares
    (h : f.Acceptable) (hf : f.IsAnnotated) :
    ∃ d, f.Declares d := by
  obtain ⟨o, hsaid⟩ := h.attributed.exists_saidIn hf
  obtain ⟨held, hheld⟩ := f.type.exists_holds o.nested
  exact ⟨⟨f.queryName o, held⟩, o, hsaid, queryName_eq_iff.mp rfl, hheld⟩

theorem declarations_cons_of_not_isAnnotated
    (h : ¬ f.IsAnnotated) :
    declarations (f :: fs) = declarations fs := by
  rw [declarations, declaration?_eq_ok_none_iff.mpr h]
  cases declarations fs <;> rfl

theorem declarations_cons_eq_ok_iff
    (h : f.IsAnnotated) :
    declarations (f :: fs) = .ok ds ↔
      ∃ d more, (¬ f.type.IsMap ∧ f.Declares d) ∧ declarations fs = .ok more ∧ ds = d :: more := by
  simp only [← declaration?_eq_ok_some_iff]
  constructor
  · intro hds
    rw [declarations] at hds
    split at hds
    next =>
      cases hds
    next found hfound =>
      split at hds
      next =>
        cases hds
      next more hmore =>
        cases hds
        cases found with
        | none =>
            exact absurd h (declaration?_eq_ok_none_iff.mp hfound)
        | some d =>
            exact ⟨d, more, hfound, hmore, rfl⟩
  · rintro ⟨d, more, hd, hmore, rfl⟩
    rw [declarations, hd]
    simp only [hmore]
    rfl

/-- The reading of fields comes to its end iff each of them is acceptable, and the
annotated ones make the declarations. -/
theorem declarations_eq_ok_iff :
    declarations fs = .ok ds ↔
      (∀ f ∈ fs, f.Acceptable) ∧ List.Forall₂ Declares (fs.filter (IsAnnotated ·)) ds := by
  induction fs generalizing ds with
  | nil =>
      simp [declarations, eq_comm]
  | cons f rest ih =>
      rw [List.forall_mem_cons]
      by_cases hf : f.IsAnnotated
      · rw [declarations_cons_eq_ok_iff hf, List.filter_cons_of_pos (by simpa using hf)]
        constructor
        · rintro ⟨d, more, ⟨hmap, hd⟩, hmore, rfl⟩
          obtain ⟨hrest, hmore⟩ := ih.mp hmore
          exact ⟨⟨.of_declares hmap hd, hrest⟩, .cons hd hmore⟩
        · rintro ⟨⟨hacceptable, hrest⟩, hds⟩
          cases hds with
          | cons hd hmore =>
              exact ⟨_, _, ⟨hacceptable.unmapped hf, hd⟩, ih.mpr ⟨hrest, hmore⟩, rfl⟩
      · rw [declarations_cons_of_not_isAnnotated hf, List.filter_cons_of_neg (by simpa using hf), ih]
        simp only [Acceptable.of_not_isAnnotated hf, true_and]

theorem exists_declarations
    (h : ∀ f ∈ fs, f.Acceptable) :
    ∃ ds, declarations fs = .ok ds := by
  induction fs with
  | nil =>
      exact ⟨[], rfl⟩
  | cons f rest ih =>
      rw [List.forall_mem_cons] at h
      obtain ⟨more, hmore⟩ := ih h.2
      by_cases hf : f.IsAnnotated
      · obtain ⟨d, hd⟩ := h.1.exists_declares hf
        have hmap := h.1.unmapped hf
        exact ⟨d :: more, (declarations_cons_eq_ok_iff hf).mpr ⟨d, more, ⟨hmap, hd⟩, hmore, rfl⟩⟩
      · exact ⟨more, (declarations_cons_of_not_isAnnotated hf).trans hmore⟩

end ItemField

namespace Item

/-- The named fields of an item. -/
def namedFields (item : Item) : List ItemField :=
  match item.body with
  | .named fields => fields
  | _ => []

/-- The fields with an attribute that counts, in order. -/
def annotatedFields (item : Item) : List ItemField :=
  item.namedFields.filter (ItemField.IsAnnotated ·)

/-- The item is a record with named fields, or without any fields. -/
def IsRecord (item : Item) : Prop :=
  (∃ fields, item.body = .named fields) ∨ item.body = .unit

/-- What an item has to meet to declare a shape. -/
structure Acceptable (item : Item) : Prop where
  plain : item.generics = []
  record : item.IsRecord
  attributed : WellAttributed item.attributes
  unnested : ∀ o : Options, o.SaidIn item.attributes → o.nested = false
  fields : ∀ f ∈ item.namedFields, f.Acceptable

/-- The declared shape bears the name: the item's option, or else its own name as written. -/
inductive Bears (item : Item) : String → Prop
  | option {o : Options} {name : String} :
      o.SaidIn item.attributes →
      o.name = some name →
      Bears item name
  | own :
      (∀ o : Options, o.SaidIn item.attributes → o.name = none) →
      Bears item item.name

variable {item : Item} {fs : List ItemField} {name : String} {s : Shape TypeExpr}

theorem fields_eq_ok_iff :
    item.fields = .ok fs ↔ item.generics = [] ∧ item.IsRecord ∧ item.namedFields = fs := by
  rcases item with ⟨itemName, generics, attributes, body⟩
  by_cases hgenerics : generics = []
  · cases body <;> simp [fields, hgenerics, IsRecord, namedFields]
  · simp [fields, hgenerics]

theorem shapeName_eq_ok_iff :
    item.shapeName = .ok name ↔
      WellAttributed item.attributes ∧
      (∀ o : Options, o.SaidIn item.attributes → o.nested = false) ∧
      item.Bears name := by
  constructor
  · intro h
    unfold shapeName at h
    split at h
    next =>
      cases h
    next hfound =>
      cases h
      have hnil := Options.ofAttributes_eq_ok_none_iff.mp hfound
      have hunsaid : ∀ o : Options, ¬ o.SaidIn item.attributes :=
        fun o ho => ho.countingIn_ne_nil hnil
      exact ⟨.of_countingIn_eq_nil hnil, fun o ho => absurd ho (hunsaid o),
        .own fun o ho => absurd ho (hunsaid o)⟩
    next o hfound =>
      split at h
      next =>
        cases h
      next hnested =>
        cases h
        have hsaid := Options.ofAttributes_eq_ok_some_iff.mp hfound
        refine ⟨hsaid.wellAttributed, fun o' ho' => ?_, ?_⟩
        · rw [← hsaid.eq ho']
          simpa using hnested
        · cases hname : o.name with
          | some given =>
              exact .option hsaid hname
          | none =>
              exact .own fun o' ho' => hsaid.eq ho' ▸ hname
  · rintro ⟨hattributed, hnested, hbears⟩
    by_cases hnil : countingIn item.attributes = []
    · rw [shapeName, Options.ofAttributes_eq_ok_none_iff.mpr hnil]
      cases hbears with
      | option hsaid _ =>
          exact absurd hnil hsaid.countingIn_ne_nil
      | own =>
          rfl
    · obtain ⟨o, hsaid⟩ := hattributed.exists_saidIn hnil
      rw [shapeName, Options.ofAttributes_eq_ok_some_iff.mpr hsaid]
      simp only [hnested o hsaid, Bool.false_eq_true, if_false, Except.ok.injEq]
      cases hbears with
      | option hsaid' hname =>
          rw [hsaid.eq hsaid', hname, Option.getD_some]
      | own hown =>
          rw [hown o hsaid, Option.getD_none]

theorem shape_eq_ok_iff_parts :
    item.shape = .ok s ↔
      item.fields = .ok item.namedFields ∧
      item.shapeName = .ok s.name ∧
      ItemField.declarations item.namedFields = .ok s.fields := by
  constructor
  · intro h
    unfold shape at h
    split at h
    next =>
      cases h
    next fields hfields =>
      obtain ⟨_, _, rfl⟩ := fields_eq_ok_iff.mp hfields
      split at h
      next =>
        cases h
      next name hname =>
        split at h
        next =>
          cases h
        next decls hdecls =>
          cases h
          exact ⟨hfields, hname, hdecls⟩
  · rintro ⟨hfields, hname, hdecls⟩
    simp only [shape, hfields, hname, hdecls]

theorem Acceptable.of_shape
    (h : item.shape = .ok s) :
    item.Acceptable := by
  obtain ⟨hfields, hname, hdecls⟩ := shape_eq_ok_iff_parts.mp h
  obtain ⟨hplain, hrecord, _⟩ := fields_eq_ok_iff.mp hfields
  obtain ⟨hattributed, hunnested, _⟩ := shapeName_eq_ok_iff.mp hname
  exact ⟨hplain, hrecord, hattributed, hunnested, (ItemField.declarations_eq_ok_iff.mp hdecls).1⟩

theorem exists_bears (item : Item) :
    ∃ name, item.Bears name := by
  by_cases hname : ∃ o : Options, ∃ name, o.SaidIn item.attributes ∧ o.name = some name
  · obtain ⟨o, name, hsaid, hname⟩ := hname
    exact ⟨name, .option hsaid hname⟩
  · refine ⟨item.name, .own fun o hsaid => ?_⟩
    cases ho : o.name with
    | some name =>
        exact absurd ⟨o, name, hsaid, ho⟩ hname
    | none =>
        rfl

/-- The shape that an acceptable item declares is told by its name and its annotated fields. -/
theorem Acceptable.shape_eq_ok_iff
    (h : item.Acceptable) :
    item.shape = .ok s ↔
      item.Bears s.name ∧ List.Forall₂ ItemField.Declares item.annotatedFields s.fields := by
  rw [shape_eq_ok_iff_parts, fields_eq_ok_iff, shapeName_eq_ok_iff,
    ItemField.declarations_eq_ok_iff]
  constructor
  · rintro ⟨_, ⟨_, _, hbears⟩, _, hdecls⟩
    exact ⟨hbears, hdecls⟩
  · rintro ⟨hbears, hdecls⟩
    exact ⟨⟨h.plain, h.record, rfl⟩, ⟨h.attributed, h.unnested, hbears⟩, h.fields, hdecls⟩

/--
An item declares a shape iff it is acceptable.  The shape bears the name that the item
gives it, and its declarations stand one by one for the annotated fields.
-/
theorem shape_eq_ok_iff_acceptable (item : Item) :
    ((∃ s, item.shape = .ok s) ↔ item.Acceptable) ∧
    ∀ s, item.shape = .ok s ↔
      item.Acceptable ∧
      item.Bears s.name ∧
      List.Forall₂ ItemField.Declares item.annotatedFields s.fields := by
  refine ⟨⟨?_, fun h => ?_⟩, fun s => ⟨fun h => ?_, ?_⟩⟩
  · rintro ⟨s, h⟩
    exact .of_shape h
  · obtain ⟨name, hname⟩ := item.exists_bears
    obtain ⟨decls, hdecls⟩ := ItemField.exists_declarations h.fields
    exact ⟨⟨name, decls⟩, h.shape_eq_ok_iff.mpr
      ⟨hname, (ItemField.declarations_eq_ok_iff.mp hdecls).2⟩⟩
  · have hacceptable := Acceptable.of_shape h
    exact ⟨hacceptable, hacceptable.shape_eq_ok_iff.mp h⟩
  · rintro ⟨hacceptable, hs⟩
    exact hacceptable.shape_eq_ok_iff.mpr hs

end Item
end Declaration
end ShapeQuery
