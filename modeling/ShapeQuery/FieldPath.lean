import ShapeQuery.Registry
import ShapeQuery.Token

/-!
# Field paths

The field list of a shape holds one dotted path for every leaf field that can be
reached from it, in declaration order and depth first.

**Walk.**  A walk carries the registry that resolves shapes, the lineage of
shapes it is inside of (the outermost first), the text put before every name, and
the paths found so far.  It fails at a shape that fails its check, and at a shape
that is already on the lineage, since the paths through it would never end.  A
walk that fails stays where it failed, so its registry keeps what was resolved.

**Way back.**  After a field the place is cut back to the length that it had
before the field, and after a shape the lineage loses its innermost shape.

**Termination.**  Each shape entered is a shape of the table that was not on the
lineage before, so the number of table entries off the lineage falls.  The next
field is walked from a lineage of the same shapes, which an outcome carries as a
fact about where the walk came back to.
-/

namespace ShapeQuery

/-- Where a walk stands and what it has found. -/
structure Walk (ι : Type) where
  registry : Registry ι
  lineage : List ι
  place : String
  paths : List String

namespace Walk

section Steps

variable {ι : Type}

/-- Writes text at the end of the place. -/
def extend (w : Walk ι) (text : String) : Walk ι :=
  { w with place := w.place ++ text }

/-- Takes down the place as the path of a leaf field. -/
def emit (w : Walk ι) : Walk ι :=
  { w with paths := w.paths ++ [w.place] }

/-- Cuts the place back to its first characters. -/
def cutBack (w : Walk ι) (length : Nat) : Walk ι :=
  { w with place := .ofList (w.place.toList.take length) }

/-- Walks a leaf field. -/
def leaf (w : Walk ι) (name : String) : Walk ι :=
  (w.extend name).emit.cutBack w.place.length

/-- Writes the name of a nested field before every further name. -/
def descend (w : Walk ι) (name : String) : Walk ι :=
  (w.extend name).extend Token.pathSeparator

/-- Leaves the shape that was entered last. -/
def leave (w : Walk ι) : Walk ι :=
  { w with lineage := w.lineage.dropLast }

theorem lineage_leaf
    (w : Walk ι) (name : String) :
    (w.leaf name).lineage = w.lineage := by
  rfl

/-- Text is found again by its length in a longer text. -/
theorem ofList_take_append
    (text more : String) :
    String.ofList ((text ++ more).toList.take text.length) = text := by
  rw [String.toList_append, ← String.length_toList, List.take_left, String.ofList_toList]

/-- A leaf field adds its path and changes nothing else. -/
theorem leaf_eq
    (w : Walk ι) (name : String) :
    w.leaf name = { w with paths := w.paths ++ [w.place ++ name] } := by
  simp only [leaf, extend, emit, cutBack, ofList_take_append]

/-- Cutting back takes the name of a nested field off the place again. -/
theorem place_cutBack
    {w home : Walk ι} {name : String}
    (h : home.place = (w.descend name).place) :
    (home.cutBack w.place.length).place = w.place := by
  simp only [cutBack, h, descend, extend, String.append_assoc, ofList_take_append]

/-- Cutting back the place does not touch the lineage, and neither did the descent. -/
theorem lineage_cutBack
    {w home : Walk ι} {name : String} {length : Nat}
    (h : home.lineage = (w.descend name).lineage) :
    (home.cutBack length).lineage = w.lineage :=
  h

variable [DecidableEq ι]

/-- Enters a shape: it must be off the lineage and pass its check. -/
def enter (t : ShapeTable ι) (w : Walk ι) (i : ι) :
    Except ShapeError (List (CheckedField ι)) × Walk ι :=
  if i ∈ w.lineage then
    (.error (.recursiveShape ((w.lineage ++ [i]).map fun j => (t.shape j).name)), w)
  else
    match w.registry.resolve t i with
    | (.error e, registry) => (.error e, { w with registry := registry })
    | (.ok c, registry) =>
        (.ok c.fields, { w with registry := registry, lineage := w.lineage ++ [i] })

/-- How many entries of the table are off the lineage. -/
def offLineage (t : ShapeTable ι) (w : Walk ι) : Nat :=
  (t.ids.filter fun j => j ∉ w.lineage).length

end Steps

section Measure

theorem length_filter_lt
    {α : Type} {p q : α → Bool} {l : List α} {x : α}
    (hpq : ∀ a, p a = true → q a = true)
    (hx : x ∈ l) (hp : p x = false) (hq : q x = true) :
    (l.filter p).length < (l.filter q).length := by
  induction l with
  | nil =>
      simp at hx
  | cons a l ih =>
      have hle : (l.filter p).length ≤ (l.filter q).length := by
        rw [← List.countP_eq_length_filter, ← List.countP_eq_length_filter]
        exact List.countP_mono_left fun b _ hb => hpq b hb
      rcases List.mem_cons.mp hx with rfl | hmem
      · simp [hp, hq]
        omega
      · have hlt := ih hmem
        cases hpa : p a with
        | true =>
            simp [hpa, hpq a hpa]
            omega
        | false =>
            cases hqa : q a <;> simp [hpa, hqa] <;> omega

variable {ι : Type} [DecidableEq ι]

/-- A shape that is entered is put on the lineage, on which it was not. -/
theorem lineage_of_enter
    {t : ShapeTable ι} {w inside : Walk ι} {i : ι} {own : List (CheckedField ι)}
    (h : w.enter t i = (.ok own, inside)) :
    i ∉ w.lineage ∧ inside.lineage = w.lineage ++ [i] := by
  unfold enter at h
  split at h
  next => simp at h
  next hi =>
    split at h
    next => simp at h
    next c registry hresolve =>
      obtain ⟨_, rfl⟩ := Prod.mk.inj h
      exact ⟨hi, rfl⟩

/-- Walks on the same lineage have the same entries off it. -/
theorem offLineage_congr
    (t : ShapeTable ι) {w w' : Walk ι}
    (h : w'.lineage = w.lineage) :
    w'.offLineage t = w.offLineage t := by
  simp [offLineage, h]

/-- A shape that is entered leaves fewer entries off the lineage. -/
theorem offLineage_lt_of_enter
    {t : ShapeTable ι} {w inside : Walk ι} {i : ι} {own : List (CheckedField ι)}
    (h : w.enter t i = (.ok own, inside)) :
    inside.offLineage t < w.offLineage t := by
  obtain ⟨hi, hlineage⟩ := lineage_of_enter h
  unfold offLineage
  rw [hlineage]
  refine length_filter_lt ?_ (t.mem_ids i) ?_ ?_
  · intro j hj
    simp at hj ⊢
    exact hj.1
  · simp
  · simpa using hi

end Measure

/-- How a walk that sets out from `w` ends. -/
inductive Outcome {ι : Type} (w : Walk ι)
  /-- It fails, and stays where it failed. -/
  | failed (e : ShapeError) (stopped : Walk ι)
  /-- It comes back to the lineage that it set out from. -/
  | back (home : Walk ι) (lineage_eq : home.lineage = w.lineage)

namespace Outcome

variable {ι : Type} {w w' : Walk ι}

/-- The outcome for a walk that sets out from the same lineage. -/
def since (o : Outcome w') (h : w'.lineage = w.lineage) : Outcome w :=
  match o with
  | failed e stopped => failed e stopped
  | back home lineage_eq => back home (lineage_eq.trans h)

end Outcome

section Running

variable {ι : Type} [DecidableEq ι]

/-- Leaving a shape that was entered gives the lineage from before. -/
theorem lineage_leave
    {t : ShapeTable ι} {w inside inner : Walk ι} {i : ι} {own : List (CheckedField ι)}
    (h : w.enter t i = (.ok own, inside))
    (hinner : inner.lineage = inside.lineage) :
    inner.leave.lineage = w.lineage := by
  simp [leave, hinner, (lineage_of_enter h).2]

mutual

/-- Walks a shape: enters it, walks its fields and leaves it. -/
def visit (t : ShapeTable ι) (w : Walk ι) (i : ι) : Outcome w :=
  match henter : w.enter t i with
  | (.error e, stopped) => .failed e stopped
  | (.ok own, inside) =>
    match fields t inside own with
    | .failed e stopped => .failed e stopped
    | .back inner hinner => .back inner.leave (lineage_leave henter hinner)
  termination_by (w.offLineage t, 0)
  decreasing_by
    exact Prod.Lex.left _ _ (offLineage_lt_of_enter henter)

/-- Walks fields of the shape that was entered last. -/
def fields (t : ShapeTable ι) (w : Walk ι) : List (CheckedField ι) → Outcome w
  | [] => .back w rfl
  | ⟨name, .scalar⟩ :: rest => (fields t (w.leaf name) rest).since (lineage_leaf w name)
  | ⟨name, .scalarCollection⟩ :: rest => (fields t (w.leaf name) rest).since (lineage_leaf w name)
  | ⟨name, .nested child⟩ :: rest =>
    match visit t (w.descend name) child with
    | .failed e stopped => .failed e stopped
    | .back home hhome =>
        (fields t (home.cutBack w.place.length) rest).since (lineage_cutBack hhome)
  termination_by todo => (w.offLineage t, todo.length + 1)
  decreasing_by
    · exact Prod.Lex.right _ (by simp)
    · exact Prod.Lex.right _ (by simp)
    · exact Prod.Lex.right _ (by simp)
    · rw [offLineage_congr (w := w) t (lineage_cutBack hhome)]
      exact Prod.Lex.right _ (by simp)

end

@[simp] theorem fields_nil
    (t : ShapeTable ι) (w : Walk ι) :
    w.fields t [] = .back w rfl := by
  rw [fields]

theorem fields_leaf
    (t : ShapeTable ι) (w : Walk ι) {f : CheckedField ι} (rest : List (CheckedField ι))
    (hleaf : f.kind.isLeaf = true) :
    w.fields t (f :: rest) = ((w.leaf f.name).fields t rest).since (lineage_leaf w f.name) := by
  rcases f with ⟨name, kind⟩
  cases kind with
  | scalar =>
      rw [fields]
  | scalarCollection =>
      rw [fields]
  | nested child =>
      cases hleaf

/-- The walk that stands outside of all shapes. -/
def start (r : Registry ι) : Walk ι :=
  { registry := r, lineage := [], place := "", paths := [] }

end Running
end Walk

namespace Registry

variable {ι : Type} [DecidableEq ι]

/-- The field paths of a shape, resolving what is not resolved yet. -/
def paths (t : ShapeTable ι) (r : Registry ι) (root : ι) :
    Except ShapeError (List String) × Registry ι :=
  match (Walk.start r).visit t root with
  | .failed e stopped => (.error e, stopped.registry)
  | .back home _ => (.ok home.paths, home.registry)

/-- The field paths of a shape as one field list. -/
def fieldList (t : ShapeTable ι) (r : Registry ι) (root : ι) :
    Except ShapeError String × Registry ι :=
  match r.paths t root with
  | (.error e, registry) => (.error e, registry)
  | (.ok paths, registry) => (.ok (Token.fieldSeparator.intercalate paths), registry)

theorem fieldList_eq
    (t : ShapeTable ι) (r : Registry ι) (root : ι) :
    r.fieldList t root =
      ((r.paths t root).1.map Token.fieldSeparator.intercalate, (r.paths t root).2) := by
  unfold fieldList
  split
  next e registry h => rw [h]; rfl
  next paths registry h => rw [h]; rfl

end Registry
end ShapeQuery
