import ShapeQuery.Shape.Checked
import Mathlib.Data.Fintype.EquivFin
import Mathlib.Logic.Relation

/-!
# Nesting of shapes

The graph of a shape table has the shapes as its vertices and the nested fields
as its edges.  Only identities count in it: names play no role, and one shape may
be nested under any number of fields.

**Ends.**  Nesting ends below a shape when every chain of nested fields from it
does.  In a finite table this is the case iff no shape that it reaches encloses
itself (`ends_iff_not_cyclic`).

**Gathering.**  `gather` is the recursion on nesting: it goes through the declared
fields in order and puts together what it gets from each of them.  The expansion
of a shape and the pre-order of the shapes below it are two instances.
-/

namespace ShapeQuery
namespace ShapeTable

section Graph

variable {ι : Type}

/-- The shape `child` stands in a nested field of the shape `parent`. -/
def Nests (t : ShapeTable ι) (parent child : ι) : Prop :=
  ∃ d ∈ (t.shape parent).fields, d.content = .nested child

/-- A shape is reached through any number of nested fields. -/
def Reaches (t : ShapeTable ι) : ι → ι → Prop :=
  Relation.ReflTransGen t.Nests

/-- A shape is reached through one or more nested fields. -/
def Encloses (t : ShapeTable ι) : ι → ι → Prop :=
  Relation.TransGen t.Nests

/-- Some shape that is reached from the root encloses itself. -/
def Cyclic (t : ShapeTable ι) (root : ι) : Prop :=
  ∃ i, t.Reaches root i ∧ t.Encloses i i

/-- Every chain of nested fields from the shape ends. -/
def Ends (t : ShapeTable ι) (i : ι) : Prop :=
  Acc (fun child parent => t.Nests parent child) i

variable {t : ShapeTable ι} {i j : ι}

theorem Ends.of_nests
    (hi : t.Ends i) (hij : t.Nests i j) :
    t.Ends j :=
  hi.inv hij

theorem Ends.of_reaches
    (hi : t.Ends i) (hij : t.Reaches i j) :
    t.Ends j := by
  induction hij with
  | refl =>
      exact hi
  | tail _ hjk ih =>
      exact ih.of_nests hjk

/-- A shape below which nesting ends does not enclose itself. -/
theorem Ends.not_encloses_self
    (hi : t.Ends i) :
    ¬ t.Encloses i i := by
  induction hi with
  | intro i _ ih =>
      intro hloop
      obtain ⟨j, hij, hji⟩ := Relation.TransGen.head'_iff.mp hloop
      exact ih j hij (Relation.TransGen.tail' hji hij)

theorem finite
    (t : ShapeTable ι) :
    Finite ι :=
  Finite.of_surjective t.ids.get (List.get_surjective_iff.mpr t.mem_ids)

/-- In a finite table, nesting ends below a shape iff no cycle is reached from it. -/
theorem ends_iff_not_cyclic
    {root : ι} :
    t.Ends root ↔ ¬ t.Cyclic root := by
  constructor
  · rintro hroot ⟨i, hreach, hloop⟩
    exact (hroot.of_reaches hreach).not_encloses_self hloop
  · intro hacyclic
    have := t.finite
    let below : {i // t.Reaches root i} → {i // t.Reaches root i} → Prop :=
      fun child parent => t.Encloses parent child
    have htrans : IsTrans _ below :=
      ⟨fun _ _ _ hba hcb => Relation.TransGen.trans hcb hba⟩
    have hirrefl : Std.Irrefl below :=
      ⟨fun i hloop => hacyclic ⟨i, i.2, hloop⟩⟩
    have hwf : WellFounded below := Finite.wellFounded_of_trans_of_irrefl below
    have hall : ∀ i : {i // t.Reaches root i}, t.Ends i := by
      intro i
      induction i using hwf.induction with
      | _ i ih =>
          refine Acc.intro _ fun j hij => ?_
          exact ih ⟨j, i.2.tail hij⟩ (Relation.TransGen.single hij)
    exact hall ⟨root, .refl⟩

end Graph

section CheckedFields

variable {ι : Type} {t : ShapeTable ι} {i child other : ι} {c : CheckedShape ι}
variable {rest : List (CheckedField ι)}

/-- A shape stands in one of the checked fields. -/
def NestedIn (own : List (CheckedField ι)) (child : ι) : Prop :=
  ∃ f ∈ own, f.kind = .nested child

theorem not_nestedIn_nil :
    ¬ NestedIn [] child := by
  rintro ⟨f, hf, _⟩
  simp at hf

theorem nestedIn_leaf
    {f : CheckedField ι}
    (hleaf : f.kind.isLeaf = true) :
    NestedIn (f :: rest) child ↔ NestedIn rest child := by
  have hkind : f.kind ≠ .nested child := by
    intro h
    simp [h, FieldKind.isLeaf] at hleaf
  simp [NestedIn, hkind]

theorem nestedIn_nested
    {name : String} :
    NestedIn (⟨name, .nested other⟩ :: rest) child ↔ child = other ∨ NestedIn rest child := by
  simp [NestedIn, eq_comm]

/-- The shapes nested in a shape that passes its check are those of its checked fields. -/
theorem nests_iff_of_check
    (hc : t.check i = .ok c) :
    t.Nests i child ↔ NestedIn c.fields child := by
  have hkind : ∀ f : CheckedField ι,
      f.declared.content = .nested child ↔ f.kind = .nested child := by
    rintro ⟨name, kind⟩
    cases kind <;> simp [CheckedField.declared]
  simp only [Nests, NestedIn, ← t.declared_of_check hc, List.mem_map, ← hkind]
  constructor
  · rintro ⟨_, ⟨f, hf, rfl⟩, hcontent⟩
    exact ⟨f, hf, hcontent⟩
  · rintro ⟨f, hf, hcontent⟩
    exact ⟨_, ⟨f, hf, rfl⟩, hcontent⟩

/-- The shape and all shapes below it pass their checks, and nesting ends below it. -/
inductive Queryable (t : ShapeTable ι) : ι → Prop
  | intro {i : ι} {c : CheckedShape ι} :
      t.check i = .ok c →
      (∀ child, t.Nests i child → t.Queryable child) →
      t.Queryable i

theorem Queryable.ends
    (h : t.Queryable i) :
    t.Ends i := by
  induction h with
  | intro _ _ ih =>
      exact Acc.intro _ ih

end CheckedFields

/-- What to gather from a field: from one that ends a path, and from a nested one. -/
structure Gathering (ι α : Type) where
  leaf : String → List α
  /-- Takes the name, the nested shape and what is gathered from that shape. -/
  nested : String → ι → List α → List α

section Gathering

variable {ι α : Type}

/-- What is gathered from one field, given what is gathered from nested shapes. -/
def Gathering.ofField (g : Gathering ι α) (below : ι → List α) (d : DeclaredField ι) : List α :=
  match d.content with
  | .scalar => g.leaf d.name
  | .scalarCollection => g.leaf d.name
  | .nested child => g.nested d.name child (below child)
  | .nestedCollection _ => []

/-- What is gathered from checked fields, given what is gathered from nested shapes. -/
def Gathering.ofFields (g : Gathering ι α) (below : ι → List α) (own : List (CheckedField ι)) :
    List α :=
  own.flatMap fun f => g.ofField below f.declared

/--
What is gathered from a shape below which nesting ends: field by field in the
declared order, and from the nested shapes by recursion.
-/
def gather (t : ShapeTable ι) (g : Gathering ι α) (i : ι) (ends : t.Ends i) : List α :=
  (t.shape i).fields.attach.flatMap fun d =>
    match hcontent : d.1.content with
    | .scalar => g.leaf d.1.name
    | .scalarCollection => g.leaf d.1.name
    | .nested child =>
        g.nested d.1.name child (gather t g child (ends.of_nests ⟨d.1, d.2, hcontent⟩))
    | .nestedCollection _ => []
  termination_by (⟨i, ends⟩ : {i // Acc (fun child parent => t.Nests parent child) i})
  decreasing_by exact ⟨d.1, d.2, hcontent⟩

/-- Some function solves the recursion equation of gathering on all shapes that end. -/
theorem exists_gather_eq
    (t : ShapeTable ι) (g : Gathering ι α) :
    ∃ below : ι → List α,
      ∀ i (ends : t.Ends i),
        t.gather g i ends = below i ∧
        below i = (t.shape i).fields.flatMap (g.ofField below) := by
  classical
  let below : ι → List α := fun i => if ends : t.Ends i then t.gather g i ends else []
  have hbelow : ∀ i (ends : t.Ends i), t.gather g i ends = below i := by
    intro i ends
    simp [below, ends]
  refine ⟨below, fun i ends => ⟨hbelow i ends, ?_⟩⟩
  rw [← hbelow i ends, gather]
  refine (List.flatMap_subtype fun d hd => ?_).trans (by rw [List.unattach_attach])
  rcases d with ⟨name, content⟩
  cases content <;> simp [Gathering.ofField, hbelow]

/-- What each gathered thing stands for can be gathered at once. -/
theorem flatMap_gather
    {β : Type} {t : ShapeTable ι} {g : Gathering ι α} {g' : Gathering ι β} {k : α → List β}
    (hleaf : ∀ name, (g.leaf name).flatMap k = g'.leaf name)
    (hnested : ∀ name child inner,
      (g.nested name child inner).flatMap k = g'.nested name child (inner.flatMap k))
    (i : ι) (ends : t.Ends i) :
    (t.gather g i ends).flatMap k = t.gather g' i ends := by
  obtain ⟨below, hbelow⟩ := t.exists_gather_eq g
  obtain ⟨below', hbelow'⟩ := t.exists_gather_eq g'
  rw [(hbelow i ends).1, (hbelow' i ends).1]
  induction ends with
  | intro i hchildren ih =>
      have ends : t.Ends i := .intro i hchildren
      rw [(hbelow i ends).2, (hbelow' i ends).2, List.flatMap_assoc]
      refine List.flatMap_congr fun d hd => ?_
      rcases d with ⟨name, content⟩
      cases content with
      | scalar =>
          exact hleaf name
      | scalarCollection =>
          exact hleaf name
      | nested child =>
          rw [Gathering.ofField, Gathering.ofField, hnested, ih child ⟨_, hd, rfl⟩]
      | nestedCollection child =>
          rfl

section Checked

variable {t : ShapeTable ι} {g : Gathering ι α} {below : ι → List α} {c : CheckedShape ι}
variable {i child : ι} {rest : List (CheckedField ι)}

@[simp] theorem Gathering.ofFields_nil :
    g.ofFields below [] = [] := by
  rfl

theorem Gathering.ofFields_leaf
    {f : CheckedField ι}
    (hleaf : f.kind.isLeaf = true) :
    g.ofFields below (f :: rest) = g.leaf f.name ++ g.ofFields below rest := by
  rcases f with ⟨name, kind⟩
  cases kind with
  | scalar =>
      rfl
  | scalarCollection =>
      rfl
  | nested child =>
      cases hleaf

theorem Gathering.ofFields_nested
    (name : String) :
    g.ofFields below (⟨name, .nested child⟩ :: rest) =
      g.nested name child (below child) ++ g.ofFields below rest := by
  rfl

/-- A shape that passes its check is gathered from by its checked fields. -/
theorem Gathering.ofFields_of_check
    (hc : t.check i = .ok c) :
    g.ofFields below c.fields = (t.shape i).fields.flatMap (g.ofField below) := by
  rw [← t.declared_of_check hc, List.flatMap_map]
  rfl

end Checked
end Gathering

end ShapeTable
end ShapeQuery
