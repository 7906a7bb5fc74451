import ShapeQuery.Proofs.RegistrySound

/-!
# Walks over sound registries

Over a sound registry a walk depends on the table alone: a shape is entered iff it
is off the lineage and passes its check.  This module says so for each step, and
gives the induction along such a walk, in which the registry no longer shows.
-/

namespace ShapeQuery
namespace Walk

variable {ι : Type} [DecidableEq ι] {t : ShapeTable ι}

/-- The walk inside of a shape that was entered. -/
def inside (t : ShapeTable ι) (w : Walk ι) (i : ι) : Walk ι :=
  { w with registry := (w.registry.resolve t i).2, lineage := w.lineage ++ [i] }

section Entering

variable {w inner home stopped : Walk ι} {i : ι} {own : List (CheckedField ι)} {e : ShapeError}

/-- A shape is entered iff it is off the lineage and passes its check. -/
theorem enter_eq_ok
    (hr : w.registry.Sound t) :
    w.enter t i = (.ok own, inner) ↔
      i ∉ w.lineage ∧ inner = w.inside t i ∧
      ∃ c, t.check i = .ok c ∧ own = c.fields := by
  rw [← hr.resolve_fst]
  unfold enter inside
  split
  next hi =>
    simp [hi]
  next hi =>
    split
    next e registry hresolve =>
      simp [hresolve]
    next c registry hresolve =>
      simp only [hresolve, Prod.mk.injEq, Except.ok.injEq]
      constructor
      · rintro ⟨rfl, rfl⟩
        exact ⟨hi, rfl, c, rfl, rfl⟩
      · rintro ⟨_, rfl, c, rfl, rfl⟩
        exact ⟨rfl, rfl⟩

/-- A shape is refused on the lineage, and off it with the error of its check. -/
theorem enter_eq_error
    (hr : w.registry.Sound t) :
    w.enter t i = (.error e, stopped) ↔
      stopped = w ∧
      (i ∈ w.lineage ∧
          e = .recursiveShape ((w.lineage ++ [i]).map fun j => (t.shape j).name) ∨
        i ∉ w.lineage ∧ t.check i = .error e) := by
  rw [← hr.resolve_fst]
  unfold enter
  split
  next hi =>
    simp [hi, eq_comm, and_comm]
  next hi =>
    split
    next e' registry hresolve =>
      have hsame : registry = w.registry := by
        have := Registry.resolve_snd_of_error (t := t) (r := w.registry) (i := i) (e := e')
        simpa [hresolve] using this
      subst hsame
      simp only [hi, hresolve, Prod.mk.injEq, Except.error.injEq, false_and, false_or,
        not_false_eq_true, true_and]
      constructor
      · rintro ⟨rfl, rfl⟩
        exact ⟨rfl, rfl⟩
      · rintro ⟨rfl, rfl⟩
        exact ⟨rfl, rfl⟩
    next c registry hresolve =>
      simp [hi, hresolve]

/-- Over a sound registry, a walk comes back from a fit shape that is off the lineage. -/
theorem visit_eq_back_of_sound
    {hhome : home.lineage = w.lineage}
    (hr : w.registry.Sound t) :
    w.visit t i = .back home hhome ↔
      i ∉ w.lineage ∧
      ∃ c inner hinner,
        t.check i = .ok c ∧
        (w.inside t i).fields t c.fields = .back inner hinner ∧
        home = inner.leave := by
  simp only [visit_eq_back, enter_eq_ok hr]
  constructor
  · rintro ⟨_, _, inner, hinner, ⟨hi, rfl, c, hc, rfl⟩, hfields, rfl⟩
    exact ⟨hi, c, inner, hinner, hc, hfields, rfl⟩
  · rintro ⟨hi, c, inner, hinner, hc, hfields, rfl⟩
    exact ⟨_, _, inner, hinner, ⟨hi, rfl, c, hc, rfl⟩, hfields, rfl⟩

/--
Over a sound registry, a walk fails at a shape on the lineage, at an unfit shape,
or inside of a fit one.
-/
theorem visit_eq_failed_of_sound
    (hr : w.registry.Sound t) :
    w.visit t i = .failed e stopped ↔
      (i ∈ w.lineage ∧ stopped = w ∧
        e = .recursiveShape ((w.lineage ++ [i]).map fun j => (t.shape j).name)) ∨
      (i ∉ w.lineage ∧ stopped = w ∧ t.check i = .error e) ∨
      (i ∉ w.lineage ∧ ∃ c,
        t.check i = .ok c ∧ (w.inside t i).fields t c.fields = .failed e stopped) := by
  simp only [visit_eq_failed, enter_eq_error hr, enter_eq_ok hr]
  constructor
  · rintro (⟨rfl, ⟨hi, rfl⟩ | ⟨hi, he⟩⟩ | ⟨_, _, ⟨hi, rfl, c, hc, rfl⟩, hfields⟩)
    · exact .inl ⟨hi, rfl, rfl⟩
    · exact .inr (.inl ⟨hi, rfl, he⟩)
    · exact .inr (.inr ⟨hi, c, hc, hfields⟩)
  · rintro (⟨hi, rfl, rfl⟩ | ⟨hi, rfl, he⟩ | ⟨hi, c, hc, hfields⟩)
    · exact .inl ⟨rfl, .inl ⟨hi, rfl⟩⟩
    · exact .inl ⟨rfl, .inr ⟨hi, he⟩⟩
    · exact .inr ⟨_, _, ⟨hi, rfl, c, hc, rfl⟩, hfields⟩

end Entering

/--
Induction along a walk over a sound registry: a shape off the lineage that passes
its check may count on its own fields, and a field on the shape nested in it and,
once the walk is back, on the fields after it.
-/
theorem sound_walk_induction
    (t : ShapeTable ι)
    {onVisit : Walk ι → ι → Prop} {onFields : Walk ι → List (CheckedField ι) → Prop}
    (visit : ∀ w i,
      w.registry.Sound t →
      (∀ c, i ∉ w.lineage → t.check i = .ok c → onFields (w.inside t i) c.fields) →
      onVisit w i)
    (nil : ∀ w, w.registry.Sound t → onFields w [])
    (leaf : ∀ w f rest,
      w.registry.Sound t →
      f.kind.isLeaf = true →
      onFields (w.leaf f.name) rest →
      onFields w (f :: rest))
    (nested : ∀ w name child rest,
      w.registry.Sound t →
      onVisit (w.descend name) child →
      (∀ mid hmid,
        (w.descend name).visit t child = .back mid hmid →
        onFields (mid.cutBack w.place.length) rest) →
      onFields w (⟨name, .nested child⟩ :: rest)) :
    (∀ w i, w.registry.Sound t → onVisit w i) ∧
    (∀ w own, w.registry.Sound t → onFields w own) := by
  have hsound : ∀ r i, Registry.Sound t r → Registry.Sound t (r.resolve t i).2 :=
    fun r i hr => Registry.sound_resolve hr i
  refine walk_induction t ?_ ?_ ?_ ?_
  · intro w i ih hr
    refine visit w i hr fun c hi hc => ?_
    exact ih c.fields _ ((enter_eq_ok hr).mpr ⟨hi, rfl, c, hc, rfl⟩) (hsound _ i hr)
  · exact nil
  · intro w f rest hleaf ih hr
    exact leaf w f rest hr hleaf (ih (by simpa [leaf_eq] using hr))
  · intro w name child rest ihvisit ihrest hr
    refine nested w name child rest hr (ihvisit hr) fun mid hmid hback => ?_
    have hmidsound := (registry_invariant hsound).1 (w.descend name) child hr
    rw [hback] at hmidsound
    exact ihrest mid hmid hback hmidsound

end Walk
end ShapeQuery
