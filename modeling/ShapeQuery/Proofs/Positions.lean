import ShapeQuery.Proofs.Nesting

/-!
# Positions below a shape

A position is a list of field indices.  Followed from a shape, each index picks a nested
field of the shape reached so far, and the shape nested in it is reached next.  A
position records a way down and not only the shape at its end: one shape may stand at
many positions, and below a cycle at infinitely many.

**Order.**  Depth first and in declaration order, a shape comes before everything below
it, and what is below one field before what is below the next.  On positions this is the
lexicographic order, in which a list comes before the lists that continue it.

**Lineage.**  The shapes that are passed on the way to a position stand at positions
before it (`Leads.exists_lt_of_mem`).
-/

namespace ShapeQuery
namespace ShapeTable

variable {ι : Type}

/-- From one shape a position leads through some shapes, the first of them on top, to another. -/
inductive Leads (t : ShapeTable ι) : ι → List Nat → List ι → ι → Prop
  | here (i : ι) :
      Leads t i [] [] i
  | down {i child j : ι} {n : Nat} {name : String} {place : List Nat} {above : List ι} :
      (t.shape i).fields[n]? = some ⟨name, .nested child⟩ →
      Leads t child place above j →
      Leads t i (n :: place) (i :: above) j

/-- The same for positions that begin at one of some fields. -/
inductive LeadsIn (t : ShapeTable ι) (ds : List (DeclaredField ι)) :
    List Nat → List ι → ι → Prop
  | field {child j : ι} {n : Nat} {name : String} {place : List Nat} {above : List ι} :
      ds[n]? = some ⟨name, .nested child⟩ →
      t.Leads child place above j →
      LeadsIn t ds (n :: place) above j

variable {t : ShapeTable ι} {i j child : ι} {n : Nat} {name : String}
variable {place : List Nat} {above : List ι} {d : DeclaredField ι} {ds : List (DeclaredField ι)}

theorem leads_nil_iff :
    t.Leads i [] above j ↔ above = [] ∧ j = i := by
  constructor
  · intro h
    cases h
    exact ⟨rfl, rfl⟩
  · rintro ⟨rfl, rfl⟩
    exact .here j

/-- Below a shape, positions begin at its fields. -/
theorem leads_cons_iff :
    t.Leads i (n :: place) above j ↔
      ∃ inner, above = i :: inner ∧ t.LeadsIn (t.shape i).fields (n :: place) inner j := by
  constructor
  · intro h
    cases h with
    | down hfield hchild =>
        exact ⟨_, rfl, .field hfield hchild⟩
  · rintro ⟨inner, rfl, h⟩
    cases h with
    | field hfield hchild =>
        exact .down hfield hchild

theorem not_leadsIn_nil :
    ¬ t.LeadsIn [] place above j := by
  intro h
  cases h with
  | field hfield _ =>
      simp at hfield

theorem leadsIn_zero_iff :
    t.LeadsIn (⟨name, .nested child⟩ :: ds) (0 :: place) above j ↔ t.Leads child place above j := by
  constructor
  · intro h
    cases h with
    | field hfield hchild =>
        cases hfield
        exact hchild
  · intro h
    exact .field rfl h

theorem not_leadsIn_zero
    (hleaf : ∀ child, d.content ≠ .nested child) :
    ¬ t.LeadsIn (d :: ds) (0 :: place) above j := by
  intro h
  cases h with
  | field hfield _ =>
      cases hfield
      exact hleaf _ rfl

theorem leadsIn_succ_iff :
    t.LeadsIn (d :: ds) ((n + 1) :: place) above j ↔ t.LeadsIn ds (n :: place) above j := by
  constructor
  · intro h
    cases h with
    | field hfield hchild =>
        exact .field hfield hchild
  · intro h
    cases h with
    | field hfield hchild =>
        exact .field hfield hchild

/-- A position of a shape is the shape itself, or begins at one of its fields. -/
theorem exists_leads_and_iff
    {P : List Nat → Prop} :
    (∃ place above, t.Leads i place above j ∧ P place) ↔
      j = i ∧ P [] ∨ ∃ place above, t.LeadsIn (t.shape i).fields place above j ∧ P place := by
  constructor
  · rintro ⟨place, above, h, hP⟩
    cases place with
    | nil =>
        exact .inl ⟨(leads_nil_iff.mp h).2, hP⟩
    | cons n place =>
        obtain ⟨inner, _, hfields⟩ := leads_cons_iff.mp h
        exact .inr ⟨_, inner, hfields, hP⟩
  · rintro (⟨rfl, hP⟩ | ⟨place, inner, h, hP⟩)
    · exact ⟨[], [], .here j, hP⟩
    · cases h with
      | field hfield hchild =>
          exact ⟨_, _, .down hfield hchild, hP⟩

/-- A position at some fields begins at the first of them or at a later one. -/
theorem exists_leadsIn_cons_iff
    {P later : List Nat → Prop}
    (hlater : ∀ n place, P ((n + 1) :: place) ↔ later (n :: place)) :
    (∃ place above, t.LeadsIn (d :: ds) place above j ∧ P place) ↔
      (∃ place above, t.LeadsIn (d :: ds) (0 :: place) above j ∧ P (0 :: place)) ∨
      ∃ place above, t.LeadsIn ds place above j ∧ later place := by
  constructor
  · rintro ⟨_, above, h, hP⟩
    cases h with
    | @field _ _ n _ place _ hfield hchild =>
        cases n with
        | zero =>
            exact .inl ⟨place, above, .field hfield hchild, hP⟩
        | succ n =>
            exact .inr ⟨_, above, .field hfield hchild, (hlater n place).mp hP⟩
  · rintro (⟨place, above, h, hP⟩ | ⟨_, above, h, hP⟩)
    · exact ⟨_, above, h, hP⟩
    · cases h with
      | @field _ _ n _ place _ hfield hchild =>
          exact ⟨_, above, leadsIn_succ_iff.mpr (.field hfield hchild), (hlater n place).mpr hP⟩

/-- The shapes at the positions below a shape are those that it reaches. -/
theorem exists_leads_iff :
    (∃ place above, t.Leads i place above j) ↔ t.Reaches i j := by
  constructor
  · rintro ⟨place, above, h⟩
    induction h with
    | here i =>
        exact .refl
    | down hfield _ ih =>
        exact .head ⟨_, List.mem_of_getElem? hfield, rfl⟩ ih
  · intro h
    induction h using Relation.ReflTransGen.head_induction_on with
    | refl =>
        exact ⟨[], [], .here j⟩
    | head hnests _ ih =>
        obtain ⟨⟨name, content⟩, hd, rfl⟩ := hnests
        obtain ⟨n, hn⟩ := List.mem_iff_getElem?.mp hd
        obtain ⟨place, above, hchild⟩ := ih
        exact ⟨_, _, .down hn hchild⟩

/-- The shapes that are passed on the way to a position stand at positions before it. -/
theorem Leads.exists_lt_of_mem
    {k : ι}
    (h : t.Leads i place above j) (hk : k ∈ above) :
    ∃ earlier passed, t.Leads i earlier passed k ∧ earlier < place := by
  induction h with
  | here i =>
      simp at hk
  | @down i _ _ n _ place _ hfield _ ih =>
      rcases List.mem_cons.mp hk with rfl | hk
      · exact ⟨[], [], .here k, List.nil_lt_cons n place⟩
      · obtain ⟨earlier, passed, hleads, hlt⟩ := ih hk
        exact ⟨_, _, .down hfield hleads, List.cons_lt_cons_iff.mpr (.inr ⟨rfl, hlt⟩)⟩

end ShapeTable
end ShapeQuery
