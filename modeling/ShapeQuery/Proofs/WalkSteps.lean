import ShapeQuery.FieldPath

/-!
# Steps of a walk

What the walk of a shape and the walk of a list of fields can do, each said once:
how either of them comes back or fails in terms of its parts, and the induction
that follows the two.

An `Outcome` carries the fact that the walk is back on its lineage, so the lemmas
name that fact only to hand it on.
-/

namespace ShapeQuery
namespace Walk

section Outcomes

variable {ι : Type} {w w' home stopped : Walk ι} {e : ShapeError}

/-- Where a walk ends, whichever way. -/
def Outcome.last : Outcome w → Walk ι
  | .failed _ stopped => stopped
  | .back home _ => home

@[simp] theorem Outcome.since_eq_failed
    {o : Outcome w'} {h : w'.lineage = w.lineage} :
    o.since h = .failed e stopped ↔ o = .failed e stopped := by
  cases o <;> simp [Outcome.since]

@[simp] theorem Outcome.since_eq_back
    {o : Outcome w'} {h : w'.lineage = w.lineage} {hhome : home.lineage = w.lineage} :
    o.since h = .back home hhome ↔ o = .back home (hhome.trans h.symm) := by
  cases o <;> simp [Outcome.since]

@[simp] theorem Outcome.last_since
    {o : Outcome w'} {h : w'.lineage = w.lineage} :
    (o.since h).last = o.last := by
  cases o <;> rfl

end Outcomes

section Steps

variable {ι : Type} [DecidableEq ι] {t : ShapeTable ι}
variable {w home stopped : Walk ι} {i child : ι} {name : String} {e : ShapeError}
variable {rest : List (CheckedField ι)}

/-- A walk of a shape comes back by leaving the shape after all of its fields. -/
theorem visit_eq_back
    {hhome : home.lineage = w.lineage} :
    w.visit t i = .back home hhome ↔
      ∃ own inside inner hinner,
        w.enter t i = (.ok own, inside) ∧
        inside.fields t own = .back inner hinner ∧
        home = inner.leave := by
  rw [visit]
  split
  next e stopped henter =>
    simp [henter]
  next own inside henter =>
    have hparts : ∀ own' inside',
        w.enter t i = (.ok own', inside') → own = own' ∧ inside = inside' := by
      simp [henter]
    split
    next e stopped hfields =>
      constructor
      · intro h
        cases h
      · rintro ⟨own', inside', inner, hinner, henter', hfields', rfl⟩
        obtain ⟨rfl, rfl⟩ := hparts own' inside' henter'
        simp [hfields] at hfields'
    next inner hinner hfields =>
      constructor
      · intro h
        cases h
        exact ⟨own, inside, inner, hinner, henter, hfields, rfl⟩
      · rintro ⟨own', inside', inner', hinner', henter', hfields', rfl⟩
        obtain ⟨rfl, rfl⟩ := hparts own' inside' henter'
        rw [hfields] at hfields'
        cases hfields'
        rfl

/-- A walk of a shape fails at the entrance or at one of its fields. -/
theorem visit_eq_failed :
    w.visit t i = .failed e stopped ↔
      w.enter t i = (.error e, stopped) ∨
      ∃ own inside,
        w.enter t i = (.ok own, inside) ∧
        inside.fields t own = .failed e stopped := by
  rw [visit]
  split
  next e' stopped' henter =>
    simp [henter]
  next own inside henter =>
    have hparts : ∀ own' inside',
        w.enter t i = (.ok own', inside') → own = own' ∧ inside = inside' := by
      simp [henter]
    split
    next e' stopped' hfields =>
      constructor
      · intro h
        cases h
        exact .inr ⟨own, inside, henter, hfields⟩
      · rintro (h | ⟨own', inside', henter', h⟩)
        · simp [henter] at h
        · obtain ⟨rfl, rfl⟩ := hparts own' inside' henter'
          rw [hfields] at h
          cases h
          rfl
    next inner hinner hfields =>
      constructor
      · intro h
        cases h
      · rintro (h | ⟨own', inside', henter', h⟩)
        · simp [henter] at h
        · obtain ⟨rfl, rfl⟩ := hparts own' inside' henter'
          simp [hfields] at h

/-- A nested field is walked by walking its shape, and then the next field. -/
theorem fields_nested_eq_back
    {hhome : home.lineage = w.lineage} :
    w.fields t (⟨name, .nested child⟩ :: rest) = .back home hhome ↔
      ∃ mid hmid,
        (w.descend name).visit t child = .back mid hmid ∧
        (mid.cutBack w.place.length).fields t rest =
          .back home (hhome.trans (lineage_cutBack hmid).symm) := by
  rw [fields]
  split
  next e stopped hvisit =>
    simp [hvisit]
  next mid hmid hvisit =>
    simp only [hvisit, Outcome.since_eq_back, Outcome.back.injEq]
    constructor
    · intro h
      exact ⟨mid, hmid, rfl, h⟩
    · rintro ⟨_, _, rfl, h⟩
      exact h

/-- A nested field fails in its shape or, once that is left, at a later field. -/
theorem fields_nested_eq_failed :
    w.fields t (⟨name, .nested child⟩ :: rest) = .failed e stopped ↔
      (w.descend name).visit t child = .failed e stopped ∨
      ∃ mid hmid,
        (w.descend name).visit t child = .back mid hmid ∧
        (mid.cutBack w.place.length).fields t rest = .failed e stopped := by
  rw [fields]
  split
  next e' stopped' hvisit =>
    simp [hvisit]
  next mid hmid hvisit =>
    simp only [hvisit, Outcome.since_eq_failed, Outcome.back.injEq, reduceCtorEq, false_or]
    constructor
    · intro h
      exact ⟨mid, hmid, rfl, h⟩
    · rintro ⟨_, _, rfl, h⟩
      exact h

/--
Induction along a walk: a shape may count on its own fields, and a field on the
shape nested in it and, once the walk is back, on the fields after it.
-/
theorem walk_induction
    (t : ShapeTable ι)
    {onVisit : Walk ι → ι → Prop} {onFields : Walk ι → List (CheckedField ι) → Prop}
    (visit : ∀ w i,
      (∀ own inside, w.enter t i = (.ok own, inside) → onFields inside own) →
      onVisit w i)
    (nil : ∀ w, onFields w [])
    (leaf : ∀ w f rest,
      f.kind.isLeaf = true →
      onFields (w.leaf f.name) rest →
      onFields w (f :: rest))
    (nested : ∀ w name child rest,
      onVisit (w.descend name) child →
      (∀ mid hmid,
        (w.descend name).visit t child = .back mid hmid →
        onFields (mid.cutBack w.place.length) rest) →
      onFields w (⟨name, .nested child⟩ :: rest)) :
    (∀ w i, onVisit w i) ∧ (∀ w own, onFields w own) := by
  apply Walk.visit.mutual_induct t onVisit onFields
  case case1 =>
    intro w i e stopped henter
    refine visit w i fun own inside hok => ?_
    simp [henter] at hok
  case case2 =>
    intro w i own inside henter _ _ _ ih
    refine visit w i fun own' inside' hok => ?_
    simp only [henter, Prod.mk.injEq, Except.ok.injEq] at hok
    obtain ⟨rfl, rfl⟩ := hok
    exact ih
  case case3 =>
    intro w i own inside henter _ _ _ ih
    refine visit w i fun own' inside' hok => ?_
    simp only [henter, Prod.mk.injEq, Except.ok.injEq] at hok
    obtain ⟨rfl, rfl⟩ := hok
    exact ih
  case case4 =>
    exact nil
  case case5 =>
    intro w name rest ih
    exact leaf w ⟨name, .scalar⟩ rest rfl ih
  case case6 =>
    intro w name rest ih
    exact leaf w ⟨name, .scalarCollection⟩ rest rfl ih
  case case7 =>
    intro w name child rest e stopped hvisit ih
    refine nested w name child rest ih fun mid hmid hback => ?_
    simp [hvisit] at hback
  case case8 =>
    intro w name child rest home hhome hvisit ihvisit ihrest
    refine nested w name child rest ihvisit fun mid hmid hback => ?_
    rw [hvisit] at hback
    cases hback
    exact ihrest

end Steps
end Walk

namespace Registry

variable {ι : Type} [DecidableEq ι] {t : ShapeTable ι} {r : Registry ι} {root : ι}

theorem paths_of_failed
    {e : ShapeError} {stopped : Walk ι}
    (h : (Walk.start r).visit t root = .failed e stopped) :
    r.paths t root = (.error e, stopped.registry) := by
  rw [paths, h]

theorem paths_of_back
    {home : Walk ι} {hhome : home.lineage = (Walk.start r).lineage}
    (h : (Walk.start r).visit t root = .back home hhome) :
    r.paths t root = (.ok home.paths, home.registry) := by
  rw [paths, h]

theorem paths_eq_ok
    {ps : List String} :
    (r.paths t root).1 = .ok ps ↔
      ∃ home hhome, (Walk.start r).visit t root = .back home hhome ∧ ps = home.paths := by
  cases h : (Walk.start r).visit t root with
  | failed e stopped =>
      simp [paths_of_failed h]
  | back home hhome =>
      simp only [paths_of_back h, Except.ok.injEq, Walk.Outcome.back.injEq]
      constructor
      · rintro rfl
        exact ⟨home, hhome, rfl, rfl⟩
      · rintro ⟨_, _, rfl, rfl⟩
        rfl

theorem paths_eq_error
    {e : ShapeError} :
    (r.paths t root).1 = .error e ↔
      ∃ stopped, (Walk.start r).visit t root = .failed e stopped := by
  cases h : (Walk.start r).visit t root with
  | failed e' stopped =>
      simp [paths_of_failed h]
  | back home hhome =>
      simp [paths_of_back h]

theorem paths_snd
    (t : ShapeTable ι) (r : Registry ι) (root : ι) :
    (r.paths t root).2 = ((Walk.start r).visit t root).last.registry := by
  cases h : (Walk.start r).visit t root with
  | failed e stopped =>
      rw [paths_of_failed h]
      rfl
  | back home hhome =>
      rw [paths_of_back h]
      rfl

end Registry
end ShapeQuery
