import ShapeQuery.Shape.Checked

/-!
# What the check of a shape finds

A shape passes its check iff its table is not empty and every declaration in it is
fit, and then its checked fields are made from the declarations one by one.  If there
are declarations and some are unfit, the error is that of the first of them, told
with its index or its name.
-/

namespace ShapeQuery

section CheckOutcome

variable {ι : Type}

/-- A declaration that can be queried. -/
structure DeclaredField.Fit (d : DeclaredField ι) : Prop where
  named : Text.isBlank d.name = false
  single : ∀ child, d.content ≠ .nestedCollection child

/-- The error of an unfit declaration at an index of the named shape. -/
inductive DeclaredField.Refused (shape : String) (index : Nat) (d : DeclaredField ι) :
    ShapeError → Prop
  | blank :
      Text.isBlank d.name = true →
      Refused shape index d (.blankFieldName shape index)
  | collection {child : ι} :
      Text.isBlank d.name = false →
      d.content = .nestedCollection child →
      Refused shape index d (.nestedCollection shape d.name)

variable {shape : String} {index : Nat} {d : DeclaredField ι} {ds : List (DeclaredField ι)}
variable {field : CheckedField ι} {fields : List (CheckedField ι)} {e : ShapeError}

theorem DeclaredField.check_eq_ok_iff :
    d.check shape index = .ok field ↔ d.Fit ∧ field.declared = d := by
  rcases d with ⟨name, content⟩
  rcases field with ⟨checkedName, kind⟩
  cases hblank : Text.isBlank name with
  | true =>
      simp only [check, hblank, if_true, reduceCtorEq, false_iff, not_and]
      rintro ⟨hnamed, _⟩
      simp [hblank] at hnamed
  | false =>
      constructor
      · intro h
        refine ⟨⟨hblank, ?_⟩, declared_of_check h⟩
        rintro child rfl
        simp [check, hblank] at h
      · rintro ⟨⟨_, hsingle⟩, hdeclared⟩
        cases kind <;> cases hdeclared <;> simp [check, hblank]

theorem DeclaredField.check_eq_error_iff :
    d.check shape index = .error e ↔ d.Refused shape index e := by
  rcases d with ⟨name, content⟩
  constructor
  · intro h
    cases hblank : Text.isBlank name with
    | true =>
        simp only [check, hblank, if_true, Except.error.injEq] at h
        subst h
        exact .blank hblank
    | false =>
        cases content with
        | nestedCollection child =>
            simp only [check, hblank, Bool.false_eq_true, if_false, Except.error.injEq] at h
            subst h
            exact .collection hblank rfl
        | scalar | scalarCollection | nested =>
            simp [check, hblank] at h
  · rintro (hblank | ⟨hblank, hcontent⟩)
    · simp only [check, hblank, if_true]
    · simp only at hblank hcontent
      subst hcontent
      simp [check, hblank]

theorem DeclaredField.Refused.not_fit
    (h : d.Refused shape index e) :
    ¬ d.Fit := by
  rintro ⟨hnamed, hsingle⟩
  cases h with
  | blank hblank =>
      simp [hnamed] at hblank
  | collection _ hcontent =>
      exact hsingle _ hcontent

theorem DeclaredField.check_of_fit
    (shape : String) (index : Nat) (h : d.Fit) :
    ∃ field, d.check shape index = .ok field := by
  cases hcheck : d.check shape index with
  | error e =>
      exact absurd h (check_eq_error_iff.mp hcheck).not_fit
  | ok field =>
      exact ⟨field, rfl⟩

theorem DeclaredField.checkAll_cons_of_refused
    (h : d.Refused shape index e) :
    checkAll shape index (d :: ds) = .error e := by
  rw [checkAll, check_eq_error_iff.mpr h]

theorem DeclaredField.checkAll_cons_of_ok
    (h : d.check shape index = .ok field) :
    checkAll shape index (d :: ds) = (checkAll shape (index + 1) ds).map (field :: ·) := by
  rw [checkAll, h]
  cases checkAll shape (index + 1) ds <;> rfl

theorem DeclaredField.checkAll_eq_ok_iff :
    checkAll shape index ds = .ok fields ↔
      (∀ d ∈ ds, d.Fit) ∧ fields.map CheckedField.declared = ds := by
  constructor
  · intro h
    refine ⟨?_, declared_of_checkAll h⟩
    induction ds generalizing index fields with
    | nil =>
        simp
    | cons d rest ih =>
        cases hd : d.check shape index with
        | error e =>
            rw [checkAll_cons_of_refused (check_eq_error_iff.mp hd)] at h
            cases h
        | ok field =>
            rw [checkAll_cons_of_ok hd] at h
            cases hrest : checkAll shape (index + 1) rest with
            | error e =>
                simp [hrest, Except.map] at h
            | ok more =>
                exact List.forall_mem_cons.mpr ⟨(check_eq_ok_iff.mp hd).1, ih hrest⟩
  · rintro ⟨hfit, rfl⟩
    induction fields generalizing index with
    | nil =>
        rfl
    | cons field rest ih =>
        rw [List.map_cons, List.forall_mem_cons] at hfit
        have hfield : field.declared.check shape index = .ok field :=
          check_eq_ok_iff.mpr ⟨hfit.1, rfl⟩
        rw [List.map_cons, checkAll_cons_of_ok hfield, ih hfit.2]
        rfl

theorem DeclaredField.checkAll_eq_error_iff :
    checkAll shape index ds = .error e ↔
      ∃ before d after,
        ds = before ++ d :: after ∧
        (∀ b ∈ before, b.Fit) ∧
        d.Refused shape (index + before.length) e := by
  constructor
  · intro h
    induction ds generalizing index with
    | nil =>
        cases h
    | cons d rest ih =>
        cases hd : d.check shape index with
        | error e' =>
            have hrefused := check_eq_error_iff.mp hd
            rw [checkAll_cons_of_refused hrefused] at h
            cases h
            exact ⟨[], d, rest, rfl, by simp, hrefused⟩
        | ok field =>
            rw [checkAll_cons_of_ok hd] at h
            cases hrest : checkAll shape (index + 1) rest with
            | ok more =>
                simp [hrest, Except.map] at h
            | error e' =>
                simp only [hrest, Except.map, Except.error.injEq] at h
                subst h
                obtain ⟨before, b, after, rfl, hbefore, hb⟩ := ih hrest
                refine ⟨d :: before, b, after, rfl, ?_, ?_⟩
                · exact List.forall_mem_cons.mpr ⟨(check_eq_ok_iff.mp hd).1, hbefore⟩
                · rwa [List.length_cons, Nat.add_comm before.length, ← Nat.add_assoc]
  · rintro ⟨before, d, after, rfl, hbefore, hd⟩
    induction before generalizing index with
    | nil =>
        exact checkAll_cons_of_refused hd
    | cons b before ih =>
        rw [List.forall_mem_cons] at hbefore
        obtain ⟨field, hfield⟩ := check_of_fit shape index hbefore.1
        rw [List.length_cons, Nat.add_comm before.length, ← Nat.add_assoc] at hd
        rw [List.cons_append, checkAll_cons_of_ok hfield, ih hbefore.2 hd]
        rfl

variable {s : Shape ι} {i : ι} {c : CheckedShape ι}

theorem Shape.check_of_nil
    (h : s.fields = []) :
    s.check i = .error (.missingDeclarations s.name) := by
  rw [check, h]
  rfl

theorem Shape.check_of_ne_nil
    (h : s.fields ≠ []) :
    s.check i =
      (DeclaredField.checkAll s.name 0 s.fields).map fun fields => ⟨i, s.name, fields⟩ := by
  rw [check, if_neg (by simpa using h)]
  cases DeclaredField.checkAll s.name 0 s.fields <;> rfl

/-- A shape passes its check iff it has declarations and all of them are fit. -/
theorem Shape.check_eq_ok_iff :
    s.check i = .ok c ↔
      s.fields ≠ [] ∧
      (∀ d ∈ s.fields, d.Fit) ∧
      c.shape = i ∧
      c.name = s.name ∧
      c.fields.map CheckedField.declared = s.fields := by
  by_cases hnil : s.fields = []
  · simp [check_of_nil hnil, hnil]
  · rw [check_of_ne_nil hnil]
    constructor
    · intro h
      cases hall : DeclaredField.checkAll s.name 0 s.fields with
      | error e =>
          simp [hall, Except.map] at h
      | ok fields =>
          rw [hall] at h
          cases h
          obtain ⟨hfit, hdeclared⟩ := DeclaredField.checkAll_eq_ok_iff.mp hall
          exact ⟨hnil, hfit, rfl, rfl, hdeclared⟩
    · rintro ⟨_, hfit, rfl, hname, hdeclared⟩
      rw [DeclaredField.checkAll_eq_ok_iff.mpr ⟨hfit, hdeclared⟩, ← hname]
      rfl

/-- A shape fails its check for want of declarations, or at the first unfit one. -/
theorem Shape.check_eq_error_iff :
    s.check i = .error e ↔
      (s.fields = [] ∧ e = .missingDeclarations s.name) ∨
      ∃ before d after,
        s.fields = before ++ d :: after ∧
        (∀ b ∈ before, b.Fit) ∧
        d.Refused s.name before.length e := by
  by_cases hnil : s.fields = []
  · simp [check_of_nil hnil, hnil, eq_comm]
  · have hmap : s.check i = .error e ↔ DeclaredField.checkAll s.name 0 s.fields = .error e := by
      rw [check_of_ne_nil hnil]
      cases DeclaredField.checkAll s.name 0 s.fields <;> simp [Except.map]
    simp only [hmap, DeclaredField.checkAll_eq_error_iff, hnil, false_and, false_or, Nat.zero_add]

theorem Shape.exists_check_iff :
    (∃ c, s.check i = .ok c) ↔ s.fields ≠ [] ∧ ∀ d ∈ s.fields, d.Fit := by
  constructor
  · rintro ⟨c, h⟩
    obtain ⟨hne, hfit, _⟩ := check_eq_ok_iff.mp h
    exact ⟨hne, hfit⟩
  · rintro ⟨hne, hfit⟩
    cases hcheck : s.check i with
    | ok c =>
        exact ⟨c, rfl⟩
    | error e =>
        rcases check_eq_error_iff.mp hcheck with ⟨hnil, _⟩ | ⟨before, d, after, hfields, _, hd⟩
        · exact absurd hnil hne
        · exact absurd (hfit d (by simp [hfields])) hd.not_fit

end CheckOutcome
end ShapeQuery
