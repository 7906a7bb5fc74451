import ShapeQuery.Proofs.Acceptance

/-!
# Outcomes of reading attributes

The grammar of options follows the reader from one option to the next.  Here the texts it
accepts are said in one piece: nothing at all, or options joined by single commas, which
may have one more comma behind them (`listedBy_iff_joined`).

**Outcomes.**  A list of attributes gives nothing iff none of them counts, options iff a
single one counts and writes them, and an error in all other cases.

**Order.**  Options add up to the same sum in any order, as long as those with a name stay
in theirs.  Exchanging one attribute for another with the same sum changes no outcome, be
it an error of the attributes around it (`ofAttributes_replace`).
-/

namespace ShapeQuery
namespace Declaration
namespace WrittenOption

/-- The tokens of options with a comma between any two of them. -/
def joined (written : List WrittenOption) : List SourceToken :=
  [.sign ','].intercalate (written.map tokens)

variable {w v : WrittenOption} {written : List WrittenOption} {ts : List SourceToken}

@[simp]
theorem joined_singleton :
    joined [w] = w.tokens := by
  rw [joined, List.map_singleton, List.intercalate_singleton]

@[simp]
theorem joined_cons_cons :
    joined (w :: v :: written) = w.tokens ++ .sign ',' :: joined (v :: written) := by
  simp only [joined, List.map_cons, List.intercalate_cons_cons, List.append_assoc,
    List.singleton_append]

theorem listedBy_joined
    (written : List WrittenOption) :
    ListedBy written (joined written) := by
  induction written with
  | nil =>
      exact .nil
  | cons w rest ih =>
      cases rest with
      | nil =>
          rw [joined_singleton]
          exact .last w
      | cons v more =>
          rw [joined_cons_cons]
          exact .cons w ih

theorem listedBy_joined_comma
    (h : written ≠ []) :
    ListedBy written (joined written ++ [.sign ',']) := by
  induction written with
  | nil =>
      exact absurd rfl h
  | cons w rest ih =>
      cases rest with
      | nil =>
          rw [joined_singleton]
          exact .cons w .nil
      | cons v more =>
          rw [joined_cons_cons, List.append_assoc, List.cons_append]
          exact .cons w (ih (List.cons_ne_nil v more))

/-- Options are listed iff commas join them, and one more may stand behind the last. -/
theorem listedBy_iff_joined :
    ListedBy written ts ↔
      ts = joined written ∨ (written ≠ [] ∧ ts = joined written ++ [.sign ',']) := by
  constructor
  · intro h
    induction h with
    | nil =>
        exact .inl rfl
    | last w =>
        exact .inl joined_singleton.symm
    | @cons w rest ts hrest ih =>
        cases rest with
        | nil =>
            cases hrest
            exact .inr ⟨List.cons_ne_nil w [], by rw [joined_singleton]⟩
        | cons v more =>
            rcases ih with rfl | ⟨_, rfl⟩
            · exact .inl joined_cons_cons.symm
            · refine .inr ⟨List.cons_ne_nil w _, ?_⟩
              rw [joined_cons_cons, List.append_assoc, List.cons_append]
  · rintro (rfl | ⟨hne, rfl⟩)
    · exact listedBy_joined written
    · exact listedBy_joined_comma hne

end WrittenOption

open WrittenOption

/-- The attribute writes the options: a bare one writes none, and a list has them between
single commas, with or without one more behind the last. -/
inductive AttributeForm.Writes : AttributeForm → List WrittenOption → Prop
  | bare :
      Writes .bare []
  | list (written : List WrittenOption) :
      Writes (.options (joined written)) written
  | listComma {written : List WrittenOption} :
      written ≠ [] →
      Writes (.options (joined written ++ [.sign ','])) written

theorem AttributeForm.lists_iff_writes
    {form : AttributeForm} {written : List WrittenOption} :
    form.Lists written ↔ form.Writes written := by
  constructor
  · intro h
    cases h with
    | bare =>
        exact .bare
    | options hlisted =>
        rcases listedBy_iff_joined.mp hlisted with rfl | ⟨hne, rfl⟩
        · exact .list written
        · exact .listComma hne
  · intro h
    cases h with
    | bare =>
        exact .bare
    | list =>
        exact .options (listedBy_joined written)
    | listComma hne =>
        exact .options (listedBy_joined_comma hne)

/-- Attributes are read without an error iff at most one counts, and it lists options. -/
theorem wellAttributed_iff_ofAttributes
    {attributes : List Attribute} :
    WellAttributed attributes ↔ ∃ found, Options.ofAttributes attributes = .ok found := by
  constructor
  · intro h
    by_cases hnone : countingIn attributes = []
    · exact ⟨none, Options.ofAttributes_eq_ok_none_iff.mpr hnone⟩
    · obtain ⟨o, hsaid⟩ := h.exists_saidIn hnone
      exact ⟨some o, Options.ofAttributes_eq_ok_some_iff.mpr hsaid⟩
  · rintro ⟨found, hfound⟩
    cases found with
    | none =>
        exact .of_countingIn_eq_nil (Options.ofAttributes_eq_ok_none_iff.mp hfound)
    | some o =>
        exact (Options.ofAttributes_eq_ok_some_iff.mp hfound).wellAttributed

theorem not_wellAttributed_iff
    {attributes : List Attribute} :
    ¬ WellAttributed attributes ↔
      2 ≤ (countingIn attributes).length ∨
        ∃ a ∈ countingIn attributes, ∀ written, ¬ a.form.Writes written := by
  simp only [WellAttributed, AttributeForm.lists_iff_writes, not_and_or, not_forall, not_exists,
    exists_prop]
  exact or_congr_left Nat.not_le

namespace Options

variable {written written' : List WrittenOption} {form form' : AttributeForm}
variable {attributes before after : List Attribute} {path : Path} {o : Options}

theorem ofWritten_eq_iff :
    o = ofWritten written ↔
      (o.nested = true ↔ .nested ∈ written) ∧ o.name = (written.filterMap name?).getLast? := by
  obtain ⟨name, nested⟩ := o
  rw [ofWritten, Options.mk.injEq, and_comm, Bool.eq_iff_iff, decide_eq_true_iff]

/-- Options in another order, those with a name in the same one, say the same. -/
theorem ofWritten_eq_of_perm
    (hperm : written.Perm written')
    (hnames : written.filterMap name? = written'.filterMap name?) :
    ofWritten written = ofWritten written' := by
  refine ofWritten_eq_iff.mpr ⟨?_, ?_⟩
  · rw [ofWritten, decide_eq_true_iff]
    exact hperm.mem_iff
  · rw [ofWritten, hnames]

theorem ofForm_of_writes
    (h : form.Writes written) :
    ofForm form = .ok (ofWritten written) :=
  ofForm_eq_ok_iff.mpr ⟨written, AttributeForm.lists_iff_writes.mpr h, rfl⟩

/-- Of an attribute only its path and what its form gives are ever looked at. -/
theorem ofAttributes_replace
    (h : ofForm form = ofForm form') :
    ofAttributes (before ++ ⟨path, form⟩ :: after) =
      ofAttributes (before ++ ⟨path, form'⟩ :: after) := by
  have hfind : ∀ found,
      find found (before ++ ⟨path, form⟩ :: after) =
        find found (before ++ ⟨path, form'⟩ :: after) := by
    induction before with
    | nil =>
        intro found
        simp only [List.nil_append, find, h]
    | cons a rest ih =>
        intro found
        simp only [List.cons_append, find, ih]
  exact hfind none

/--
Attributes give nothing iff none of them counts, and options iff a single one counts and
writes some: then `nested` is said iff it is among them, and the name is the last one.  A
second attribute that counts and a form that writes no options are errors, and nothing else
is.  Where the options of an attribute are written in another order, those with a name in
the same one, the outcome stays as it was.
-/
theorem ofAttributes_outcome
    (attributes : List Attribute) :
    (ofAttributes attributes = .ok none ↔
      ∀ a ∈ attributes, a.path.segments ≠ [attributeName]) ∧
    (∀ o, ofAttributes attributes = .ok (some o) ↔
      ∃ a written,
        countingIn attributes = [a] ∧
        a.form.Writes written ∧
        (o.nested = true ↔ .nested ∈ written) ∧
        o.name = (written.filterMap name?).getLast?) ∧
    ((∃ e, ofAttributes attributes = .error e) ↔
      2 ≤ (countingIn attributes).length ∨
        ∃ a ∈ countingIn attributes, ∀ written, ¬ a.form.Writes written) ∧
    (∀ before path form after written form' written',
      attributes = before ++ ⟨path, form⟩ :: after →
      form.Writes written →
      form'.Writes written' →
      written.Perm written' →
      written.filterMap name? = written'.filterMap name? →
      ofAttributes (before ++ ⟨path, form'⟩ :: after) = ofAttributes attributes) := by
  refine ⟨?none, ?options, ?error, ?reordered⟩
  case none =>
    rw [ofAttributes_eq_ok_none_iff, countingIn, List.filter_eq_nil_iff]
    simp only [decide_eq_true_eq, ne_eq]
  case options =>
    intro o
    simp only [ofAttributes_eq_ok_some_iff, SaidIn, AttributeForm.lists_iff_writes,
      ofWritten_eq_iff]
  case error =>
    rw [← not_wellAttributed_iff, wellAttributed_iff_ofAttributes]
    cases ofAttributes attributes with
    | error e =>
        simp
    | ok found =>
        simp
  case reordered =>
    rintro before path form after written form' written' rfl hform hform' hperm hnames
    apply ofAttributes_replace
    rw [ofForm_of_writes hform, ofForm_of_writes hform', ofWritten_eq_of_perm hperm hnames]

/-- A foreign attribute in front changes nothing, and `nested` may stand on either side of
the name. -/
theorem ofAttributes_outcome_cover :
    ofAttributes
        [⟨⟨"doc", ["doc"]⟩, .assigned⟩,
          ⟨⟨"apicalypse", ["apicalypse"]⟩, .options (joined [.nested, .name "cover"])⟩] =
      .ok (some ⟨some "cover", true⟩) ∧
    ofAttributes
        [⟨⟨"doc", ["doc"]⟩, .assigned⟩,
          ⟨⟨"apicalypse", ["apicalypse"]⟩,
            .options (joined [.name "cover", .nested] ++ [.sign ','])⟩] =
      .ok (some ⟨some "cover", true⟩) := by
  have hread : ofAttributes
      [⟨⟨"doc", ["doc"]⟩, .assigned⟩,
        ⟨⟨"apicalypse", ["apicalypse"]⟩, .options (joined [.nested, .name "cover"])⟩] =
      .ok (some ⟨some "cover", true⟩) :=
    ((ofAttributes_outcome _).2.1 _).mpr
      ⟨_, [.nested, .name "cover"], rfl, .list _, by decide, rfl⟩
  refine ⟨hread, ?_⟩
  rw [← hread]
  exact (ofAttributes_outcome _).2.2.2 [⟨⟨"doc", ["doc"]⟩, .assigned⟩]
    ⟨"apicalypse", ["apicalypse"]⟩ _ [] [.nested, .name "cover"] _ [.name "cover", .nested]
    rfl (.list _) (.listComma (by decide)) (.swap _ _ _) rfl

end Options
end Declaration
end ShapeQuery
