import ShapeQuery.Proofs.SoundWalk
import Mathlib.Data.List.Induction
import Mathlib.Data.List.Zip

/-!
# Registries never show

What a registry keeps never shows in an answer: every call answers what it answers
over the empty registry, after any other calls and failed ones too
(`run_eq_map_answer`).

**Overlay.**  The stronger statement behind this is an equation.  A call over a sound
registry is the call over the empty one, with what that resolved laid over the
registry: what was kept stays, and only the rest is added (`answer_eq_onto`).  So
what a sequence of calls resolves is the union of what each of them resolves alone,
and does not depend on their order.
-/

namespace ShapeQuery
section Overlay

variable {ι : Type} [DecidableEq ι] {t : ShapeTable ι} {r base : Registry ι}
variable {i : ι} {c : CheckedShape ι}

theorem lookup_filter
    {κ α : Type} [DecidableEq κ] (p : κ → Bool) (l : List (κ × α)) (k : κ) :
    (l.filter fun entry => p entry.1).lookup k = if p k then l.lookup k else none := by
  induction l with
  | nil =>
      simp
  | cons entry l ih =>
      rcases entry with ⟨j, a⟩
      by_cases hk : k = j
      · subst hk
        cases hp : p k <;> simp [hp, ih]
      · have hne : (k == j) = false := beq_eq_false_iff_ne.mpr hk
        cases hp : p j <;> simp [hp, ih, List.lookup_cons, hne]

namespace Registry

/-- Lays what a registry keeps over a base, for the shapes that the base does not keep. -/
def onto (r base : Registry ι) : Registry ι :=
  ⟨r.entries.filter (fun entry => !base.contains entry.1) ++ base.entries⟩

theorem empty_onto
    (base : Registry ι) :
    (empty : Registry ι).onto base = base := by
  rfl

theorem find?_onto :
    (r.onto base).find? i = (base.find? i).or (r.find? i) := by
  have hfilter := lookup_filter (fun j => !base.contains j) r.entries i
  simp only [find?, onto, List.lookup_append, hfilter]
  cases h : base.entries.lookup i <;> simp [contains, find?, h]

theorem contains_onto :
    (r.onto base).contains i = (base.contains i || r.contains i) := by
  simp [contains, find?_onto]

theorem insert_onto_of_contains
    (h : base.contains i = true) :
    (r.insert i c).onto base = r.onto base := by
  simp [onto, insert, h]

theorem insert_onto_of_not_contains
    (h : base.contains i = false) :
    (r.insert i c).onto base = (r.onto base).insert i c := by
  simp [onto, insert, h]

theorem sound_onto
    (hr : r.Sound t) (hbase : base.Sound t) :
    (r.onto base).Sound t := by
  intro i c h
  rw [find?_onto, Option.or_eq_some_iff] at h
  rcases h with h | ⟨_, h⟩
  · exact hbase i c h
  · exact hr i c h

/-- Resolving a shape adds it, if it passes its check and is not there yet. -/
theorem Sound.resolve_snd
    (hr : r.Sound t) (i : ι) :
    (r.resolve t i).2 =
      match t.check i with
      | .error _ => r
      | .ok c => if r.contains i then r else r.insert i c := by
  unfold resolve contains
  cases hfind : r.find? i with
  | some c =>
      simp [hr i c hfind]
  | none =>
      cases t.check i <;> simp

/-- Resolving over a sound base resolves the same, laid over the base. -/
theorem resolve_onto
    (hr : r.Sound t) (hbase : base.Sound t) (i : ι) :
    (r.onto base).resolve t i = ((r.resolve t i).1, (r.resolve t i).2.onto base) := by
  have honto := sound_onto hr hbase
  refine Prod.ext (by rw [honto.resolve_fst, hr.resolve_fst]) ?_
  rw [honto.resolve_snd, hr.resolve_snd, contains_onto]
  cases t.check i with
  | error e =>
      rfl
  | ok c =>
      cases hkept : base.contains i <;> cases hnew : r.contains i <;>
        simp [insert_onto_of_contains, insert_onto_of_not_contains, hkept]

end Registry

namespace Walk

/-- The walk with its registry laid over a base. -/
def onto (w : Walk ι) (base : Registry ι) : Walk ι :=
  { w with registry := w.registry.onto base }

theorem lineage_onto
    {w home : Walk ι}
    (h : home.lineage = w.lineage) :
    (home.onto base).lineage = (w.onto base).lineage :=
  h

theorem inside_onto
    {w : Walk ι}
    (hr : w.registry.Sound t) (hbase : base.Sound t) (i : ι) :
    (w.onto base).inside t i = (w.inside t i).onto base := by
  simp [inside, onto, Registry.resolve_onto hr hbase]

/-- A walk over a sound base ends as it does without the base, laid over the base. -/
theorem walk_onto
    (hbase : base.Sound t) :
    (∀ (w : Walk ι) i, w.registry.Sound t →
      (∀ e stopped, w.visit t i = .failed e stopped →
        (w.onto base).visit t i = .failed e (stopped.onto base)) ∧
      (∀ home hhome, w.visit t i = .back home hhome →
        (w.onto base).visit t i = .back (home.onto base) (lineage_onto hhome))) ∧
    (∀ (w : Walk ι) own, w.registry.Sound t →
      (∀ e stopped, w.fields t own = .failed e stopped →
        (w.onto base).fields t own = .failed e (stopped.onto base)) ∧
      (∀ home hhome, w.fields t own = .back home hhome →
        (w.onto base).fields t own = .back (home.onto base) (lineage_onto hhome))) := by
  apply sound_walk_induction t
  case visit =>
    intro w i hr ih
    have honto : (w.onto base).registry.Sound t := Registry.sound_onto hr hbase
    refine ⟨fun e stopped hfailed => ?_, fun home hhome hback => ?_⟩
    · rw [visit_eq_failed_of_sound honto, inside_onto hr hbase]
      rcases (visit_eq_failed_of_sound hr).mp hfailed with
        ⟨hi, rfl, rfl⟩ | ⟨hi, rfl, he⟩ | ⟨hi, c, hc, hfields⟩
      · exact .inl ⟨hi, rfl, rfl⟩
      · exact .inr (.inl ⟨hi, rfl, he⟩)
      · exact .inr (.inr ⟨hi, c, hc, (ih c hi hc).1 e stopped hfields⟩)
    · rw [visit_eq_back_of_sound honto, inside_onto hr hbase]
      obtain ⟨hi, c, inner, hinner, hc, hfields, rfl⟩ := (visit_eq_back_of_sound hr).mp hback
      have hinside := (ih c hi hc).2 inner hinner hfields
      exact ⟨hi, c, inner.onto base, lineage_onto hinner, hc, hinside, rfl⟩
  case nil =>
    intro w hr
    refine ⟨fun e stopped hfailed => ?_, fun home hhome hback => ?_⟩
    · simp at hfailed
    · rw [fields_nil] at hback ⊢
      cases hback
      rfl
  case leaf =>
    intro w f rest hr hleaf ih
    have hsame : (w.onto base).leaf f.name = (w.leaf f.name).onto base := rfl
    refine ⟨fun e stopped hfailed => ?_, fun home hhome hback => ?_⟩
    · rw [fields_leaf t _ rest hleaf, Outcome.since_eq_failed] at hfailed ⊢
      exact ih.1 e stopped hfailed
    · rw [fields_leaf t _ rest hleaf, Outcome.since_eq_back] at hback ⊢
      exact ih.2 home _ hback
  case nested =>
    intro w name child rest hr ihvisit ihrest
    refine ⟨fun e stopped hfailed => ?_, fun home hhome hback => ?_⟩
    · rw [fields_nested_eq_failed]
      rcases fields_nested_eq_failed.mp hfailed with hvisit | ⟨mid, hmid, hvisit, hrest⟩
      · exact .inl (ihvisit.1 e stopped hvisit)
      · exact .inr ⟨mid.onto base, lineage_onto hmid, ihvisit.2 mid hmid hvisit,
          (ihrest mid hmid hvisit).1 e stopped hrest⟩
    · rw [fields_nested_eq_back]
      obtain ⟨mid, hmid, hvisit, hrest⟩ := fields_nested_eq_back.mp hback
      exact ⟨mid.onto base, lineage_onto hmid, ihvisit.2 mid hmid hvisit,
        (ihrest mid hmid hvisit).2 home _ hrest⟩

end Walk

namespace Registry

theorem paths_onto
    (hr : r.Sound t) (hbase : base.Sound t) (root : ι) :
    (r.onto base).paths t root = ((r.paths t root).1, (r.paths t root).2.onto base) := by
  obtain ⟨hfailed, hback⟩ := (Walk.walk_onto hbase).1 (Walk.start r) root hr
  cases hvisit : (Walk.start r).visit t root with
  | failed e stopped =>
      rw [paths_of_failed hvisit]
      exact paths_of_failed (hfailed e stopped hvisit)
  | back home hhome =>
      rw [paths_of_back hvisit]
      exact paths_of_back (hback home hhome hvisit)

theorem fieldList_onto
    (hr : r.Sound t) (hbase : base.Sound t) (root : ι) :
    (r.onto base).fieldList t root =
      ((r.fieldList t root).1, (r.fieldList t root).2.onto base) := by
  simp only [fieldList_eq, paths_onto hr hbase]

/-- Over a sound registry, a shape has the field list that it has over the empty one. -/
theorem Sound.fieldList_fst
    (hr : r.Sound t) (root : ι) :
    (r.fieldList t root).1 = (empty.fieldList t root).1 := by
  have h := fieldList_onto (sound_empty t) hr root
  rw [empty_onto] at h
  rw [h]

/-- A call over a sound registry is the call over the empty one, laid over the registry. -/
theorem answer_eq_onto
    (hbase : base.Sound t) (call : RegistryCall ι) :
    base.answer t call =
      ((empty.answer t call).1, (empty.answer t call).2.onto base) := by
  have hempty : (empty : Registry ι).Sound t := sound_empty t
  cases call with
  | resolve i =>
      have h := resolve_onto hempty hbase i
      rw [empty_onto] at h
      simp [answer, h]
  | check i =>
      rfl
  | fieldList i =>
      have h := fieldList_onto hempty hbase i
      rw [empty_onto] at h
      simp [answer, h]
  | paths i =>
      have h := paths_onto hempty hbase i
      rw [empty_onto] at h
      simp [answer, h]

/-- What calls leave behind is what was there and what each of them resolves alone. -/
theorem contains_after
    (hr : r.Sound t) (calls : List (RegistryCall ι)) :
    (r.after t calls).contains i = true ↔
      r.contains i = true ∨ ∃ call ∈ calls, (empty.answer t call).2.contains i = true := by
  induction calls generalizing r with
  | nil =>
      simp [after]
  | cons call rest ih =>
      have hnext : (r.answer t call).2.Sound t := sound_answer hr call
      rw [after, ih hnext, answer_eq_onto hr, contains_onto]
      simp [or_assoc]

/-- Sound registries that keep the same shapes keep the same checked forms. -/
theorem Sound.find?_eq
    {r' : Registry ι}
    (hr : r.Sound t) (hr' : r'.Sound t)
    (h : r.contains i = true ↔ r'.contains i = true) :
    r.find? i = r'.find? i := by
  unfold contains at h
  cases hfind : r.find? i with
  | none =>
      cases hfind' : r'.find? i with
      | none => rfl
      | some c' => simp [hfind, hfind'] at h
  | some c =>
      cases hfind' : r'.find? i with
      | none => simp [hfind, hfind'] at h
      | some c' =>
          have hcheck := hr i c hfind
          rw [hr' i c' hfind'] at hcheck
          cases hcheck
          rfl

/-- Every call answers what it answers over the empty registry. -/
theorem run_eq_map_answer
    (t : ShapeTable ι) (calls : List (RegistryCall ι)) :
    (empty.run t calls).map Prod.fst = calls.map fun call => (empty.answer t call).1 := by
  induction calls using List.reverseRecOn with
  | nil =>
      rfl
  | append_singleton calls call ih =>
      rw [run_concat, List.map_append, ih, List.map_append, List.map_singleton,
        List.map_singleton, answer_eq_onto (sound_after t calls)]

end Registry

/--
Calls that share one registry answer what each of them answers over the empty
registry, and a shape resolves to what its check gives whether it is kept or not.
If the calls are reordered, each call keeps its answer, and the same shapes end up
in the registry with the same checked forms.
-/
theorem shared_registry_transparent
    (t : ShapeTable ι) (calls : List (RegistryCall ι)) :
    (Registry.empty.run t calls).map Prod.fst =
      calls.map (fun call => (Registry.empty.answer t call).1) ∧
    (∀ i, ((Registry.empty.after t calls).resolve t i).1 = t.check i) ∧
    (∀ calls', calls.Perm calls' →
      (calls.zip ((Registry.empty.run t calls).map Prod.fst)).Perm
        (calls'.zip ((Registry.empty.run t calls').map Prod.fst)) ∧
      ∀ i, (Registry.empty.after t calls).find? i = (Registry.empty.after t calls').find? i) := by
  refine ⟨Registry.run_eq_map_answer t calls, (Registry.sound_after t calls).resolve_fst, ?_⟩
  intro calls' hperm
  constructor
  · rw [Registry.run_eq_map_answer, Registry.run_eq_map_answer, ← List.map_prod_left_eq_zip,
      ← List.map_prod_left_eq_zip]
    exact hperm.map _
  · intro i
    refine (Registry.sound_after t calls).find?_eq (Registry.sound_after t calls') ?_
    have hempty : (Registry.empty : Registry ι).Sound t := Registry.sound_empty t
    simp only [Registry.contains_after hempty, hperm.mem_iff]

end Overlay
end ShapeQuery
