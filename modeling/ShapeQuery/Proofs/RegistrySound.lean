import ShapeQuery.Proofs.WalkSteps
import ShapeQuery.Registry.Call

/-!
# Sound registries

A registry is sound for a table when everything it keeps is the checked form of
the shape it is kept for.  The empty registry is sound, and every operation keeps
a registry sound, the walks included that fail halfway (`sound_after`).  In a sound
registry resolving a shape gives what checking it gives.
-/

namespace ShapeQuery

section Resolving

variable {ι : Type} [DecidableEq ι] {t : ShapeTable ι} {r : Registry ι}

/-- Everything kept is the checked form of the shape that it is kept for. -/
def Registry.Sound (t : ShapeTable ι) (r : Registry ι) : Prop :=
  ∀ i c, r.find? i = some c → t.check i = .ok c

theorem Registry.sound_empty
    (t : ShapeTable ι) :
    (Registry.empty : Registry ι).Sound t := by
  intro i c h
  simp at h

theorem Registry.sound_insert
    {i : ι} {c : CheckedShape ι}
    (hr : r.Sound t) (hc : t.check i = .ok c) :
    (r.insert i c).Sound t := by
  intro j d hj
  by_cases hji : j = i
  · subst hji
    rw [Registry.find?_insert_self] at hj
    cases hj
    exact hc
  · rw [Registry.find?_insert_of_ne r c hji] at hj
    exact hr j d hj

/-- In a sound registry, resolving a shape gives what checking it gives. -/
theorem Registry.Sound.resolve_fst
    (hr : r.Sound t) (i : ι) :
    (r.resolve t i).1 = t.check i := by
  unfold Registry.resolve
  split
  next c hc =>
    exact (hr i c hc).symm
  next =>
    split
    next e he =>
      exact he.symm
    next c hc =>
      exact hc.symm

theorem Registry.sound_resolve
    (hr : r.Sound t) (i : ι) :
    (r.resolve t i).2.Sound t := by
  unfold Registry.resolve
  split
  next => exact hr
  next =>
    split
    next => exact hr
    next c hc => exact Registry.sound_insert hr hc

/-- A shape that cannot be resolved leaves the registry as it was. -/
theorem Registry.resolve_snd_of_error
    {i : ι} {e : ShapeError}
    (h : (r.resolve t i).1 = .error e) :
    (r.resolve t i).2 = r := by
  unfold Registry.resolve at h ⊢
  split
  next => rfl
  next hnone =>
    split
    next => rfl
    next c hc => simp [hnone, hc] at h

end Resolving

section Registries

variable {ι : Type} [DecidableEq ι] {t : ShapeTable ι} {P : Registry ι → Prop}

namespace Walk

/-- What resolving a shape keeps up in a registry, a whole walk keeps up. -/
theorem registry_invariant
    (hP : ∀ r i, P r → P (r.resolve t i).2) :
    (∀ w i, P w.registry → P (visit t w i).last.registry) ∧
    (∀ w own, P w.registry → P (fields t w own).last.registry) := by
  have henter : ∀ w i, P w.registry → P (enter t w i).2.registry := by
    intro w i hw
    have hresolve := hP w.registry i hw
    unfold enter
    split
    next => exact hw
    next =>
      split
      next h => simpa [h] using hresolve
      next h => simpa [h] using hresolve
  refine walk_induction t ?visit ?nil ?leaf ?nested
  case visit =>
    intro w i ih hw
    have hentered := henter w i hw
    cases houtcome : visit t w i with
    | failed e stopped =>
        rcases visit_eq_failed.mp houtcome with h | ⟨own, inner, h, hfields⟩
        · simpa [h, Outcome.last] using hentered
        · simpa [hfields, Outcome.last] using ih own inner h (by simpa [h] using hentered)
    | back home hhome =>
        obtain ⟨own, inner, last, hlast, h, hfields, rfl⟩ := visit_eq_back.mp houtcome
        simpa [hfields, Outcome.last, leave] using
          ih own inner h (by simpa [h] using hentered)
  case nil =>
    intro w hw
    simpa [Outcome.last] using hw
  case leaf =>
    intro w f rest hleaf ih hw
    rw [fields_leaf t w rest hleaf, Outcome.last_since]
    exact ih (by simpa [leaf_eq] using hw)
  case nested =>
    intro w name child rest ihvisit ihrest hw
    have hvisited := ihvisit hw
    cases houtcome : fields t w (⟨name, .nested child⟩ :: rest) with
    | failed e stopped =>
        rcases fields_nested_eq_failed.mp houtcome with h | ⟨mid, hmid, hback, h⟩
        · simpa [h, Outcome.last] using hvisited
        · rw [hback] at hvisited
          simpa [h, Outcome.last] using ihrest mid hmid hback hvisited
    | back home hhome =>
        obtain ⟨mid, hmid, hback, h⟩ := fields_nested_eq_back.mp houtcome
        rw [hback] at hvisited
        simpa [h, Outcome.last] using ihrest mid hmid hback hvisited

end Walk

namespace Registry

/-- What resolving a shape keeps up in a registry, every call keeps up. -/
theorem answer_invariant
    (hP : ∀ r i, P r → P (r.resolve t i).2)
    {r : Registry ι} (call : RegistryCall ι) (hr : P r) :
    P (r.answer t call).2 := by
  have hpaths : ∀ i, P (r.paths t i).2 := by
    intro i
    rw [paths_snd]
    exact (Walk.registry_invariant hP).1 _ i hr
  cases call with
  | resolve i =>
      exact hP r i hr
  | check i =>
      exact hr
  | fieldList i =>
      simpa [answer, fieldList_eq] using hpaths i
  | paths i =>
      exact hpaths i

theorem after_invariant
    (hP : ∀ r i, P r → P (r.resolve t i).2)
    {r : Registry ι} (calls : List (RegistryCall ι)) (hr : P r) :
    P (r.after t calls) := by
  induction calls generalizing r with
  | nil =>
      exact hr
  | cons call rest ih =>
      exact ih (answer_invariant hP call hr)

theorem sound_answer
    {r : Registry ι}
    (hr : r.Sound t) (call : RegistryCall ι) :
    (r.answer t call).2.Sound t :=
  answer_invariant (P := Sound t) (fun _ i hr => sound_resolve hr i) call hr

/-- Every registry that calls leave behind is sound. -/
theorem sound_after
    (t : ShapeTable ι) (calls : List (RegistryCall ι)) :
    (empty.after t calls).Sound t :=
  after_invariant (P := Sound t) (fun _ i hr => sound_resolve hr i) calls (sound_empty t)

end Registry
end Registries
end ShapeQuery
