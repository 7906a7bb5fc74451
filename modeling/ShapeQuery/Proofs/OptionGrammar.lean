import ShapeQuery.Declaration.Attribute

/-!
# The grammar of attribute options

Options stand between single commas, and one more comma may stand behind the last of
them.  An option is the word `nested`, or the word `name` with an equality sign and a
string literal.

Reading from left to right accepts exactly this: a form of an attribute that counts is
read iff it lists some options (`ofForm_eq_ok_iff`), and options are found in a list of
attributes iff a single one of them counts and lists them (`ofAttributes_eq_ok_some_iff`).
-/

namespace ShapeQuery
namespace Declaration

/-- An option as it is written. -/
inductive WrittenOption
  | nested
  | name (value : String)
  deriving DecidableEq

namespace WrittenOption

def tokens : WrittenOption → List SourceToken
  | nested => [.word "nested"]
  | name value => [.word "name", .sign '=', .text value]

/-- The text of a name option. -/
def name? : WrittenOption → Option String
  | nested => none
  | name value => some value

/-- What is said once one more option is read. -/
def addTo (o : Options) : WrittenOption → Options
  | nested => { o with nested := true }
  | name value => { o with name := some value }

/-- The tokens list the options: nothing, an option, or an option and more behind a comma. -/
inductive ListedBy : List WrittenOption → List SourceToken → Prop
  | nil :
      ListedBy [] []
  | last (w : WrittenOption) :
      ListedBy [w] w.tokens
  | cons (w : WrittenOption) {written : List WrittenOption} {ts : List SourceToken} :
      ListedBy written ts →
      ListedBy (w :: written) (w.tokens ++ .sign ',' :: ts)

end WrittenOption

namespace Options

open WrittenOption

/-- What options say together: the last name, and whether any of them is `nested`. -/
def ofWritten (written : List WrittenOption) : Options :=
  ⟨(written.filterMap name?).getLast?, decide (.nested ∈ written)⟩

variable {o o' : Options} {w : WrittenOption} {ts : List SourceToken}

theorem readNext_eq_ok_iff :
    o.readNext ts = .ok o' ↔
      (ts = [] ∧ o' = o) ∨ ∃ rest, ts = .sign ',' :: rest ∧ o.read rest = .ok o' := by
  constructor
  · intro h
    unfold readNext at h
    split at h
    next =>
      cases h
      exact .inl ⟨rfl, rfl⟩
    next rest =>
      exact .inr ⟨rest, rfl, h⟩
    next =>
      cases h
  · rintro (⟨rfl, rfl⟩ | ⟨rest, rfl, h⟩)
    · rw [readNext]
    · rw [readNext]
      exact h

theorem word_of_ofWord?
    {word : String} {key : OptionKey}
    (h : OptionKey.ofWord? word = some key) :
    (key = .name ∧ word = "name") ∨ (key = .nested ∧ word = "nested") := by
  unfold OptionKey.ofWord? at h
  split at h
  next hword =>
    cases h
    exact .inl ⟨rfl, hword⟩
  next =>
    split at h
    next hword =>
      cases h
      exact .inr ⟨rfl, hword⟩
    next =>
      cases h

/-- Whatever can be read begins with an option, unless nothing is left. -/
theorem exists_tokens_of_read
    (h : o.read ts = .ok o') :
    (ts = [] ∧ o' = o) ∨
      ∃ w rest, ts = WrittenOption.tokens w ++ rest ∧ (w.addTo o).readNext rest = .ok o' := by
  unfold read at h
  split at h
  next =>
    cases h
    exact .inl ⟨rfl, rfl⟩
  next =>
    cases h
  next =>
    cases h
  next word rest _ =>
    split at h
    next =>
      cases h
    next hkey =>
      rcases word_of_ofWord? hkey with ⟨hname, _⟩ | ⟨_, rfl⟩
      · cases hname
      · exact .inr ⟨.nested, rest, rfl, h⟩
    next hkey =>
      rcases word_of_ofWord? hkey with ⟨_, rfl⟩ | ⟨hnested, _⟩
      · split at h
        next =>
          cases h
        next value rest _ =>
          exact .inr ⟨.name value, rest, rfl, h⟩
        next =>
          cases h
        next =>
          cases h
      · cases hnested
  next =>
    cases h

theorem read_of_readNext
    (h : (w.addTo o).readNext ts = .ok o') :
    o.read (w.tokens ++ ts) = .ok o' := by
  cases w with
  | name value =>
      exact h
  | nested =>
      rcases readNext_eq_ok_iff.mp h with ⟨rfl, rfl⟩ | ⟨rest, rfl, hrest⟩
      · rfl
      · exact h

/-- Options are read iff they are listed, and each adds to what was said before it. -/
theorem read_eq_ok_iff :
    o.read ts = .ok o' ↔ ∃ written, ListedBy written ts ∧ o' = written.foldl addTo o := by
  constructor
  · intro h
    induction hlength : ts.length using Nat.strongRecOn generalizing o ts with
    | ind n ih =>
        rcases exists_tokens_of_read h with ⟨rfl, rfl⟩ | ⟨w, rest, rfl, hrest⟩
        · exact ⟨[], .nil, rfl⟩
        · rcases readNext_eq_ok_iff.mp hrest with ⟨rfl, rfl⟩ | ⟨more, rfl, hmore⟩
          · rw [List.append_nil]
            exact ⟨[w], .last w, rfl⟩
          · have hlt : more.length < n := by
              rw [← hlength, List.length_append, List.length_cons]
              omega
            obtain ⟨written, hlisted, rfl⟩ := ih more.length hlt hmore rfl
            exact ⟨w :: written, .cons w hlisted, rfl⟩
  · rintro ⟨written, hlisted, rfl⟩
    induction hlisted generalizing o with
    | nil =>
        rfl
    | last w =>
        rw [← List.append_nil w.tokens]
        exact read_of_readNext (readNext_eq_ok_iff.mpr (.inl ⟨rfl, rfl⟩))
    | cons w _ ih =>
        exact read_of_readNext (readNext_eq_ok_iff.mpr (.inr ⟨_, rfl, ih⟩))

theorem foldl_addTo
    (o : Options) (written : List WrittenOption) :
    written.foldl addTo o =
      ⟨(written.filterMap name?).getLast?.or o.name, decide (.nested ∈ written) || o.nested⟩ := by
  induction written generalizing o with
  | nil =>
      simp
  | cons w rest ih =>
      cases w with
      | nested =>
          simp [ih, addTo, name?]
      | name value =>
          cases hlast : (rest.filterMap name?).getLast? <;>
            simp [ih, addTo, name?, List.getLast?_cons, hlast]

end Options

/-- The attribute lists the options; a bare one lists none. -/
inductive AttributeForm.Lists : AttributeForm → List WrittenOption → Prop
  | bare :
      Lists .bare []
  | options {written : List WrittenOption} {ts : List SourceToken} :
      WrittenOption.ListedBy written ts →
      Lists (.options ts) written

namespace Options

/-- A form of an attribute that counts is read iff it lists options. -/
theorem ofForm_eq_ok_iff
    {form : AttributeForm} {o : Options} :
    ofForm form = .ok o ↔ ∃ written, form.Lists written ∧ o = ofWritten written := by
  have hfold : ∀ written, written.foldl WrittenOption.addTo empty = ofWritten written := by
    intro written
    simp [foldl_addTo, empty, ofWritten]
  cases form with
  | bare =>
      constructor
      · intro h
        cases h
        exact ⟨[], .bare, rfl⟩
      · rintro ⟨written, hlists, rfl⟩
        cases hlists
        rfl
  | assigned =>
      constructor
      · intro h
        cases h
      · rintro ⟨written, hlists, _⟩
        cases hlists
  | options ts =>
      rw [ofForm, read_eq_ok_iff]
      constructor
      · rintro ⟨written, hlisted, rfl⟩
        exact ⟨written, .options hlisted, hfold written⟩
      · rintro ⟨written, hlists, rfl⟩
        cases hlists with
        | options hlisted =>
            exact ⟨written, hlisted, (hfold written).symm⟩

end Options

/-- The attributes that count. -/
def countingIn (attributes : List Attribute) : List Attribute :=
  attributes.filter fun a => a.path.segments = [attributeName]

/-- One attribute counts, and these are its options in sum. -/
def Options.SaidIn (o : Options) (attributes : List Attribute) : Prop :=
  ∃ a written, countingIn attributes = [a] ∧ a.form.Lists written ∧ o = ofWritten written

section Attributes

variable {a : Attribute} {attributes : List Attribute} {found : Option Options} {o : Options}

theorem countingIn_cons_of_pos
    (h : a.path.segments = [attributeName]) :
    countingIn (a :: attributes) = a :: countingIn attributes := by
  rw [countingIn, List.filter_cons_of_pos (by simpa using h)]
  rfl

theorem countingIn_cons_of_neg
    (h : a.path.segments ≠ [attributeName]) :
    countingIn (a :: attributes) = countingIn attributes := by
  rw [countingIn, List.filter_cons_of_neg (by simpa using h)]
  rfl

/-- Behind an attribute that counts, no other one may count. -/
theorem Options.find_some_eq_ok_iff :
    find (some o) attributes = .ok found ↔ countingIn attributes = [] ∧ found = some o := by
  induction attributes with
  | nil =>
      simp [find, countingIn, eq_comm]
  | cons a rest ih =>
      by_cases ha : a.path.segments = [attributeName]
      · simp [find, ha, countingIn_cons_of_pos]
      · rw [find, if_neg ha, ih, countingIn_cons_of_neg ha]

theorem Options.find_none_eq_ok_iff :
    find none attributes = .ok found ↔
      (countingIn attributes = [] ∧ found = none) ∨ ∃ o, o.SaidIn attributes ∧ found = some o := by
  induction attributes with
  | nil =>
      simp [find, SaidIn, countingIn, eq_comm]
  | cons a rest ih =>
      by_cases ha : a.path.segments = [attributeName]
      · simp only [SaidIn, countingIn_cons_of_pos ha, List.cons.injEq, reduceCtorEq, false_and,
          false_or]
        rw [find, if_pos ha]
        constructor
        · intro h
          split at h
          next =>
            cases h
          next o ho =>
            obtain ⟨written, hlists, ho⟩ := ofForm_eq_ok_iff.mp ho
            obtain ⟨hrest, hfound⟩ := find_some_eq_ok_iff.mp h
            exact ⟨o, ⟨a, written, ⟨rfl, hrest⟩, hlists, ho⟩, hfound⟩
        · rintro ⟨o, ⟨_, written, ⟨rfl, hrest⟩, hlists, ho⟩, hfound⟩
          rw [ofForm_eq_ok_iff.mpr ⟨written, hlists, ho⟩]
          exact find_some_eq_ok_iff.mpr ⟨hrest, hfound⟩
      · simp only [SaidIn, countingIn_cons_of_neg ha]
        rw [find, if_neg ha]
        exact ih

theorem Options.SaidIn.countingIn_ne_nil
    (h : o.SaidIn attributes) :
    countingIn attributes ≠ [] := by
  obtain ⟨a, written, ha, _⟩ := h
  rw [ha]
  exact List.cons_ne_nil a []

/-- Nothing is found iff no attribute counts. -/
theorem Options.ofAttributes_eq_ok_none_iff :
    ofAttributes attributes = .ok none ↔ countingIn attributes = [] := by
  rw [ofAttributes, find_none_eq_ok_iff]
  simp

/-- Options are found iff a single attribute counts and it lists them. -/
theorem Options.ofAttributes_eq_ok_some_iff :
    ofAttributes attributes = .ok (some o) ↔ o.SaidIn attributes := by
  rw [ofAttributes, find_none_eq_ok_iff]
  simp

end Attributes

end Declaration
end ShapeQuery
