import ShapeQuery.Proofs.Expansion

/-!
# When a shape has field paths

A shape has field paths iff every shape that it reaches passes its check and none
of them encloses itself.  The walk itself only compares a shape with the lineage it
is inside of; both directions rest on what that lineage is, a list of shapes that
all enclose the shape that is walked.

**Errors.**  A shape is refused as recursive only if a cycle is reached, whatever
names the shapes have and however many fields share a shape.  With no cycle in
reach, the error is that of the first unfit shape in pre-order.
-/

namespace ShapeQuery
namespace ShapeTable

variable {ι : Type} {t : ShapeTable ι} {i root : ι}

/-- The shape passes its check. -/
def Passes (t : ShapeTable ι) (i : ι) : Prop :=
  ∃ c, t.check i = .ok c

/-- A nested field gives the shape nested in it and, after it, what is below that shape. -/
def shapeGathering : Gathering ι ι where
  leaf _ := []
  nested _ child below := child :: below

/-- A shape and the shapes below it, depth first, each as often as it is met. -/
def preorder (t : ShapeTable ι) (i : ι) (ends : t.Ends i) : List ι :=
  i :: t.gather shapeGathering i ends

/-- The error with which a shape fails its check. -/
def refusal (t : ShapeTable ι) (i : ι) : Option ShapeError :=
  match t.check i with
  | .error e => some e
  | .ok _ => none

theorem refusal_eq_some_iff
    {e : ShapeError} :
    t.refusal i = some e ↔ t.check i = .error e := by
  unfold refusal
  split <;> simp_all

theorem refusal_eq_none_iff :
    t.refusal i = none ↔ t.Passes i := by
  unfold refusal Passes
  split <;> simp_all

theorem Queryable.passes
    {j : ι}
    (hi : t.Queryable i) (hij : t.Reaches i j) :
    t.Passes j := by
  have hj : t.Queryable j := by
    induction hij with
    | refl =>
        exact hi
    | tail _ hjk ih =>
        cases ih with
        | intro _ hchildren => exact hchildren _ hjk
  cases hj with
  | intro hc _ => exact ⟨_, hc⟩

/-- Queryable shapes are those that reach only fit shapes, and no cycle. -/
theorem queryable_iff :
    t.Queryable root ↔ (∀ i, t.Reaches root i → t.Passes i) ∧ ¬ t.Cyclic root := by
  constructor
  · intro h
    exact ⟨fun i hreach => h.passes hreach, ends_iff_not_cyclic.mp h.ends⟩
  · rintro ⟨hpass, hacyclic⟩
    have hends := ends_iff_not_cyclic.mpr hacyclic
    clear hacyclic
    induction hends with
    | intro i _ ih =>
        obtain ⟨c, hc⟩ := hpass i .refl
        refine .intro hc fun child hchild => ?_
        exact ih child hchild fun j hj => hpass j (.head hchild hj)

end ShapeTable

section LocalErrors

variable {ι : Type} {names : List String}

theorem DeclaredField.check_ne_recursiveShape
    (shape : String) (index : Nat) (d : DeclaredField ι) :
    d.check shape index ≠ .error (.recursiveShape names) := by
  unfold DeclaredField.check
  split
  next => simp
  next => split <;> simp

theorem DeclaredField.checkAll_ne_recursiveShape
    (shape : String) (index : Nat) (ds : List (DeclaredField ι)) :
    DeclaredField.checkAll shape index ds ≠ .error (.recursiveShape names) := by
  induction ds generalizing index with
  | nil =>
      simp [DeclaredField.checkAll]
  | cons d rest ih =>
      unfold DeclaredField.checkAll
      split
      next e he =>
        intro h
        cases h
        exact d.check_ne_recursiveShape shape index he
      next =>
        split
        next e he =>
          intro h
          cases h
          exact ih (index + 1) he
        next => simp

/-- A check looks at one shape only and never finds it recursive. -/
theorem ShapeTable.check_ne_recursiveShape
    (t : ShapeTable ι) (i : ι) :
    t.check i ≠ .error (.recursiveShape names) := by
  unfold ShapeTable.check Shape.check
  split
  next => simp
  next =>
    split
    next e he =>
      intro h
      cases h
      exact DeclaredField.checkAll_ne_recursiveShape _ _ _ he
    next => simp

end LocalErrors

namespace Walk

section Errors

variable {ι : Type} {w w' : Walk ι}

/-- The error that a walk fails with. -/
def Outcome.error? : Outcome w → Option ShapeError
  | .failed e _ => some e
  | .back _ _ => none

@[simp] theorem Outcome.error?_since
    {o : Outcome w'} {h : w'.lineage = w.lineage} :
    (o.since h).error? = o.error? := by
  cases o <;> rfl

end Errors

variable {ι : Type} [DecidableEq ι] {t : ShapeTable ι}

/-- A walk fails for being recursive, or with the error of a shape that it reaches. -/
theorem error_of_failed
    (t : ShapeTable ι) :
    (∀ (w : Walk ι) i, w.registry.Sound t →
      ∀ e stopped, w.visit t i = .failed e stopped →
        (∃ names, e = .recursiveShape names) ∨
        ∃ j, t.Reaches i j ∧ t.check j = .error e) ∧
    (∀ (w : Walk ι) own, w.registry.Sound t →
      ∀ e stopped, w.fields t own = .failed e stopped →
        (∃ names, e = .recursiveShape names) ∨
        ∃ child j, ShapeTable.NestedIn own child ∧ t.Reaches child j ∧ t.check j = .error e) := by
  apply sound_walk_induction t
  case visit =>
    intro w i hr ih e stopped hfailed
    rcases (visit_eq_failed_of_sound hr).mp hfailed with
      ⟨_, _, rfl⟩ | ⟨_, _, he⟩ | ⟨hi, c, hc, hfields⟩
    · exact .inl ⟨_, rfl⟩
    · exact .inr ⟨i, .refl, he⟩
    · rcases ih c hi hc e stopped hfields with hrec | ⟨child, j, hchild, hreach, hj⟩
      · exact .inl hrec
      · exact .inr ⟨j, .head ((t.nests_iff_of_check hc).mpr hchild) hreach, hj⟩
  case nil =>
    intro w hr e stopped hfailed
    simp at hfailed
  case leaf =>
    intro w f rest hr hleaf ih e stopped hfailed
    rw [fields_leaf t w rest hleaf, Outcome.since_eq_failed] at hfailed
    rcases ih e stopped hfailed with hrec | ⟨child, j, hchild, hreach, hj⟩
    · exact .inl hrec
    · exact .inr ⟨child, j, (ShapeTable.nestedIn_leaf hleaf).mpr hchild, hreach, hj⟩
  case nested =>
    intro w name child rest hr ihvisit ihrest e stopped hfailed
    rcases fields_nested_eq_failed.mp hfailed with hvisit | ⟨mid, hmid, hback, hrest⟩
    · rcases ihvisit e stopped hvisit with hrec | ⟨j, hreach, hj⟩
      · exact .inl hrec
      · exact .inr ⟨child, j, ShapeTable.nestedIn_nested.mpr (.inl rfl), hreach, hj⟩
    · rcases ihrest mid hmid hback e stopped hrest with hrec | ⟨other, j, hother, hreach, hj⟩
      · exact .inl hrec
      · exact .inr ⟨other, j, ShapeTable.nestedIn_nested.mpr (.inr hother), hreach, hj⟩

theorem error?_visit_of_error
    {w : Walk ι} {i : ι} {e : ShapeError}
    (hr : w.registry.Sound t) (hi : i ∉ w.lineage) (he : t.check i = .error e) :
    (w.visit t i).error? = some e := by
  rw [(visit_eq_failed_of_sound hr).mpr (.inr (.inl ⟨hi, rfl, he⟩))]
  rfl

theorem error?_visit_of_ok
    {w : Walk ι} {i : ι} {c : CheckedShape ι}
    (hr : w.registry.Sound t) (hi : i ∉ w.lineage) (hc : t.check i = .ok c) :
    (w.visit t i).error? = ((w.inside t i).fields t c.fields).error? := by
  cases hfields : (w.inside t i).fields t c.fields with
  | failed e stopped =>
      rw [(visit_eq_failed_of_sound hr).mpr (.inr (.inr ⟨hi, c, hc, hfields⟩))]
      rfl
  | back inner hinner =>
      have henter := (enter_eq_ok hr).mpr ⟨hi, rfl, c, hc, rfl⟩
      rw [visit_eq_back.mpr ⟨_, _, inner, hinner, henter, hfields, rfl⟩]
      · rfl
      · exact lineage_leave henter hinner

theorem error?_fields_of_failed
    {w stopped : Walk ι} {name : String} {child : ι} {rest : List (CheckedField ι)}
    {e : ShapeError}
    (h : (w.descend name).visit t child = .failed e stopped) :
    (w.fields t (⟨name, .nested child⟩ :: rest)).error? = some e := by
  rw [fields_nested_eq_failed.mpr (.inl h)]
  rfl

theorem error?_fields_of_back
    {w mid : Walk ι} {name : String} {child : ι} {rest : List (CheckedField ι)}
    {hmid : mid.lineage = (w.descend name).lineage}
    (h : (w.descend name).visit t child = .back mid hmid) :
    (w.fields t (⟨name, .nested child⟩ :: rest)).error? =
      ((mid.cutBack w.place.length).fields t rest).error? := by
  rw [fields, h, Outcome.error?_since]

/--
Where nesting ends, a walk from inside of enclosing shapes fails with the error of
the first unfit shape that it meets, and comes back if there is none.
-/
theorem error?_eq_first_refusal
    {below : ι → List ι}
    (hbelow : ∀ i, t.Ends i →
      below i = (t.shape i).fields.flatMap (ShapeTable.shapeGathering.ofField below)) :
    (∀ (w : Walk ι) i, w.registry.Sound t →
      t.Ends i → (∀ j ∈ w.lineage, t.Encloses j i) →
        (w.visit t i).error? = (i :: below i).findSome? t.refusal) ∧
    (∀ (w : Walk ι) own, w.registry.Sound t →
      (∀ child, ShapeTable.NestedIn own child →
        t.Ends child ∧ ∀ j ∈ w.lineage, t.Encloses j child) →
        (w.fields t own).error? =
          (ShapeTable.shapeGathering.ofFields below own).findSome? t.refusal) := by
  apply sound_walk_induction t
  case visit =>
    intro w i hr ih hends henclosed
    have hi : i ∉ w.lineage := fun hmem => hends.not_encloses_self (henclosed i hmem)
    cases hc : t.check i with
    | error e =>
        rw [error?_visit_of_error hr hi hc]
        simp [ShapeTable.refusal_eq_some_iff.mpr hc]
    | ok c =>
        have hrefusal : t.refusal i = none := ShapeTable.refusal_eq_none_iff.mpr ⟨c, hc⟩
        rw [error?_visit_of_ok hr hi hc, List.findSome?_cons, hrefusal, hbelow i hends,
          ← ShapeTable.Gathering.ofFields_of_check hc]
        refine ih c hi hc fun child hchild => ?_
        have hnests := (t.nests_iff_of_check hc).mpr hchild
        refine ⟨hends.of_nests hnests, fun j hj => ?_⟩
        rcases List.mem_append.mp hj with hj | hj
        · exact (henclosed j hj).tail hnests
        · rw [List.mem_singleton.mp hj]
          exact .single hnests
  case nil =>
    intro w hr _
    simp [Outcome.error?]
  case leaf =>
    intro w f rest hr hleaf ih hown
    rw [fields_leaf t w rest hleaf, Outcome.error?_since,
      ShapeTable.Gathering.ofFields_leaf hleaf]
    exact ih fun child hchild => hown child ((ShapeTable.nestedIn_leaf hleaf).mpr hchild)
  case nested =>
    intro w name child rest hr ihvisit ihrest hown
    obtain ⟨hends, henclosed⟩ := hown child (ShapeTable.nestedIn_nested.mpr (.inl rfl))
    have hvisited := ihvisit hends henclosed
    rw [ShapeTable.Gathering.ofFields_nested, List.findSome?_append]
    cases hvisit : (w.descend name).visit t child with
    | failed e stopped =>
        rw [hvisit] at hvisited
        rw [error?_fields_of_failed hvisit, ShapeTable.shapeGathering, ← hvisited]
        rfl
    | back mid hmid =>
        rw [hvisit] at hvisited
        rw [error?_fields_of_back hvisit, ShapeTable.shapeGathering, ← hvisited]
        refine ihrest mid hmid hvisit fun other hother => ?_
        rw [lineage_cutBack hmid]
        exact hown other (ShapeTable.nestedIn_nested.mpr (.inr hother))

end Walk

section Paths

variable {ι : Type} [DecidableEq ι] {t : ShapeTable ι} {r : Registry ι} {root : ι}

theorem Registry.queryable_of_paths_eq_ok
    {ps : List String}
    (hr : r.Sound t) (h : (r.paths t root).1 = .ok ps) :
    t.Queryable root := by
  obtain ⟨below, hbelow⟩ := t.exists_gather_eq pathGathering
  obtain ⟨home, hhome, hback, _⟩ := Registry.paths_eq_ok.mp h
  have hadds := Walk.adds_of_back fun i ends => (hbelow i ends).2
  exact (hadds.1 (Walk.start r) root hr home hhome hback).1

/-- Where nesting ends, the error is that of the first unfit shape in pre-order. -/
theorem Registry.paths_eq_error_of_ends
    {e : ShapeError}
    (hr : r.Sound t) (ends : t.Ends root) :
    (r.paths t root).1 = .error e ↔
      ∃ before i after,
        t.preorder root ends = before ++ i :: after ∧
        (∀ j ∈ before, t.Passes j) ∧
        t.check i = .error e := by
  obtain ⟨below, hbelow⟩ := t.exists_gather_eq ShapeTable.shapeGathering
  have hwalk := (Walk.error?_eq_first_refusal fun i ends => (hbelow i ends).2).1
    (Walk.start r) root hr ends (by simp [Walk.start])
  rw [← (hbelow root ends).1] at hwalk
  have herror : (r.paths t root).1 = .error e ↔
      (t.preorder root ends).findSome? t.refusal = some e := by
    rw [ShapeTable.preorder, ← hwalk, Registry.paths_eq_error]
    cases (Walk.start r).visit t root <;> simp [Walk.Outcome.error?, eq_comm]
  rw [herror, List.findSome?_eq_some_iff]
  simp only [ShapeTable.refusal_eq_some_iff, ShapeTable.refusal_eq_none_iff]
  constructor
  · rintro ⟨before, i, after, hsplit, hi, hbefore⟩
    exact ⟨before, i, after, hsplit, hbefore, hi⟩
  · rintro ⟨before, i, after, hsplit, hbefore, hi⟩
    exact ⟨before, i, after, hsplit, hi, hbefore⟩

/-- A recursive shape is found only where a cycle is reached. -/
theorem Registry.cyclic_of_recursiveShape
    {names : List String}
    (hr : r.Sound t) (h : (r.paths t root).1 = .error (.recursiveShape names)) :
    t.Cyclic root := by
  by_contra hacyclic
  have ends := ShapeTable.ends_iff_not_cyclic.mpr hacyclic
  obtain ⟨_, i, _, _, _, hi⟩ := (Registry.paths_eq_error_of_ends hr ends).mp h
  exact t.check_ne_recursiveShape i hi

/-- Any other error comes from the check of a shape that is reached. -/
theorem Registry.recursiveShape_of_passes
    {e : ShapeError}
    (hr : r.Sound t) (h : (r.paths t root).1 = .error e)
    (hpass : ∀ i, t.Reaches root i → t.Passes i) :
    ∃ names, e = .recursiveShape names := by
  obtain ⟨stopped, hfailed⟩ := Registry.paths_eq_error.mp h
  rcases (Walk.error_of_failed t).1 (Walk.start r) root hr e stopped hfailed with
    hrec | ⟨j, hreach, hj⟩
  · exact hrec
  · obtain ⟨c, hc⟩ := hpass j hreach
    simp [hc] at hj

theorem Registry.paths_eq_ok_iff_queryable
    (hr : r.Sound t) :
    (∃ ps, (r.paths t root).1 = .ok ps) ↔ t.Queryable root := by
  constructor
  · rintro ⟨ps, h⟩
    exact Registry.queryable_of_paths_eq_ok hr h
  · intro hqueryable
    obtain ⟨hpass, hacyclic⟩ := ShapeTable.queryable_iff.mp hqueryable
    cases h : (r.paths t root).1 with
    | error e =>
        obtain ⟨names, rfl⟩ := Registry.recursiveShape_of_passes hr h hpass
        exact absurd (Registry.cyclic_of_recursiveShape hr h) hacyclic
    | ok ps =>
        exact ⟨ps, rfl⟩

/-- The field list fails exactly as the field paths do. -/
theorem Registry.fieldList_fst_cases
    (t : ShapeTable ι) (r : Registry ι) (root : ι) :
    ((∃ text, (r.fieldList t root).1 = .ok text) ↔ ∃ ps, (r.paths t root).1 = .ok ps) ∧
    ∀ e, (r.fieldList t root).1 = .error e ↔ (r.paths t root).1 = .error e := by
  rw [Registry.fieldList_eq]
  cases (r.paths t root).1 <;> simp [Except.map]

/--
Whatever has been asked of a registry before: a shape has field paths iff all
shapes that it reaches pass their checks and no cycle is reached.  It is refused as
recursive only if a cycle is reached, and whenever a cycle is the only trouble.  If
no cycle is reached, it is refused with the error of the first unfit shape in
pre-order.
-/
theorem paths_ok_iff_not_cyclic
    (t : ShapeTable ι) (calls : List (RegistryCall ι)) (root : ι) :
    let r := Registry.empty.after t calls
    ((∃ ps, (r.paths t root).1 = .ok ps) ↔
      (∀ i, t.Reaches root i → t.Passes i) ∧ ¬ t.Cyclic root) ∧
    ((∃ text, (r.fieldList t root).1 = .ok text) ↔
      (∀ i, t.Reaches root i → t.Passes i) ∧ ¬ t.Cyclic root) ∧
    (∀ e, (r.fieldList t root).1 = .error e ↔ (r.paths t root).1 = .error e) ∧
    (∀ names, (r.paths t root).1 = .error (.recursiveShape names) → t.Cyclic root) ∧
    ((∀ i, t.Reaches root i → t.Passes i) → t.Cyclic root →
      ∃ names, (r.paths t root).1 = .error (.recursiveShape names)) ∧
    (¬ t.Cyclic root →
      ∃ ends : t.Ends root, ∀ e,
        (r.paths t root).1 = .error e ↔
          ∃ before i after,
            t.preorder root ends = before ++ i :: after ∧
            (∀ j ∈ before, t.Passes j) ∧
            t.check i = .error e) := by
  intro r
  have hr : r.Sound t := Registry.sound_after t calls
  have hok : (∃ ps, (r.paths t root).1 = .ok ps) ↔
      (∀ i, t.Reaches root i → t.Passes i) ∧ ¬ t.Cyclic root :=
    (Registry.paths_eq_ok_iff_queryable hr).trans ShapeTable.queryable_iff
  obtain ⟨hlistok, hlisterror⟩ := Registry.fieldList_fst_cases t r root
  refine ⟨hok, hlistok.trans hok, hlisterror, ?_, ?_, ?_⟩
  · intro names h
    exact Registry.cyclic_of_recursiveShape hr h
  · intro hpass hcyclic
    cases h : (r.paths t root).1 with
    | error e =>
        obtain ⟨names, rfl⟩ := Registry.recursiveShape_of_passes hr h hpass
        exact ⟨names, rfl⟩
    | ok ps =>
        exact absurd hcyclic (hok.mp ⟨ps, h⟩).2
  · intro hacyclic
    have ends := ShapeTable.ends_iff_not_cyclic.mpr hacyclic
    exact ⟨ends, fun e => Registry.paths_eq_error_of_ends hr ends⟩

end Paths
end ShapeQuery
