import ShapeQuery.Proofs.Expansion

/-!
# Entries of a walk

Finding the paths of a root walks the root, and while a walk is inside of a shape, each
nested field enters a walk for the shape nested in it.  `Entered` says in which state and
for which shape this happens, and how deep in walks that have not come back yet.

**Invariant.**  At every entry the lineage is a way down from the root, by nested fields
and without any shape twice; the place is made of the names of these fields, each with a
separator behind it (`Entry`).  A shape is nested one call deeper than the lineage is
long, so the depth of calls is at most one more than the number of shapes that the root
reaches (`Entered.depth_le`).

**Way back.**  Within a shape, a walk is at the same lineage and the same place before
each of its fields (`GoesOn`), since a nested walk that comes back restores both.
-/

namespace ShapeQuery

/-- From a root down to a shape, through the shapes above it, by nested fields of these names. -/
inductive ShapeTable.Descent {ι : Type} (t : ShapeTable ι) (root : ι) :
    List ι → List String → ι → Prop
  | root :
      Descent t root [] [] root
  | down {above : List ι} {names : List String} {i child : ι} {name : String} :
      t.Descent root above names i →
      ⟨name, .nested child⟩ ∈ (t.shape i).fields →
      Descent t root (above ++ [i]) (names ++ [name]) child

namespace ShapeTable

variable {ι : Type} {t : ShapeTable ι} {root i : ι} {above : List ι} {names : List String}

/-- The root reaches every shape on the way down, and the shape at its end. -/
theorem Descent.reaches
    (h : t.Descent root above names i) :
    t.Reaches root i ∧ ∀ j ∈ above, t.Reaches root j := by
  induction h with
  | root =>
      exact ⟨.refl, by simp⟩
  | down _ hfield ih =>
      refine ⟨ih.1.tail ⟨_, hfield, rfl⟩, ?_⟩
      simp only [List.forall_mem_append, List.forall_mem_singleton]
      exact ⟨ih.2, ih.1⟩

/-- A way down without any shape twice has at most as many shapes as the root reaches. -/
theorem Descent.length_le
    (h : t.Descent root above names i) (hnodup : above.Nodup) :
    above.length ≤ {j | t.Reaches root j}.ncard := by
  classical
  have := t.finite
  have hsubset : (above.toFinset : Set ι) ⊆ {j | t.Reaches root j} := by
    intro j hj
    exact h.reaches.2 j (by simpa using hj)
  calc above.length
      = above.toFinset.card := (List.toFinset_card_of_nodup hnodup).symm
    _ = (above.toFinset : Set ι).ncard := (Set.ncard_coe_finset _).symm
    _ ≤ {j | t.Reaches root j}.ncard := Set.ncard_le_ncard hsubset

end ShapeTable

namespace Walk

section Definitions

variable {ι : Type} [DecidableEq ι]

/-- From the walk of some fields to that of the rest, past leaf fields and back from nested ones. -/
inductive GoesOn (t : ShapeTable ι) :
    Walk ι → List (CheckedField ι) → Walk ι → List (CheckedField ι) → Prop
  | here (w : Walk ι) (own : List (CheckedField ι)) :
      GoesOn t w own w own
  | leaf {w now : Walk ι} {f : CheckedField ι} {rest todo : List (CheckedField ι)} :
      f.kind.isLeaf = true →
      GoesOn t (w.leaf f.name) rest now todo →
      GoesOn t w (f :: rest) now todo
  | nested {w mid now : Walk ι} {name : String} {child : ι} {rest todo : List (CheckedField ι)}
      {hmid : mid.lineage = (w.descend name).lineage} :
      (w.descend name).visit t child = .back mid hmid →
      GoesOn t (mid.cutBack w.place.length) rest now todo →
      GoesOn t w (⟨name, .nested child⟩ :: rest) now todo

/--
While the paths of a root are found, a walk is entered for a shape, at a depth of walks
inside of one another.
-/
inductive Entered (t : ShapeTable ι) (r : Registry ι) (root : ι) : Nat → Walk ι → ι → Prop
  | root :
      Entered t r root 1 (start r) root
  | nested {depth : Nat} {w inside now : Walk ι} {i child : ι} {name : String}
      {own rest : List (CheckedField ι)} :
      Entered t r root depth w i →
      w.enter t i = (.ok own, inside) →
      GoesOn t inside own now (⟨name, .nested child⟩ :: rest) →
      Entered t r root (depth + 1) (now.descend name) child

/-- What holds at every entry of a walk. -/
structure Entry (t : ShapeTable ι) (root : ι) (w : Walk ι) (i : ι) : Prop where
  sound : w.registry.Sound t
  nodup : w.lineage.Nodup
  /-- The lineage leads down to the shape, and the place is made of the names on the way. -/
  descent : ∃ names,
    t.Descent root w.lineage names i ∧
    w.place = String.join (names.map (· ++ Token.pathSeparator))

end Definitions

section Invariant

variable {ι : Type} [DecidableEq ι] {t : ShapeTable ι} {r : Registry ι} {root i child : ι}
variable {w now home : Walk ι} {own todo rest : List (CheckedField ι)} {name : String}
variable {depth : Nat}

/-- Over a sound registry, a walk that comes back has added the expansion of its shape. -/
theorem exists_adds_expansion
    {hhome : home.lineage = w.lineage}
    (hr : w.registry.Sound t) (hback : w.visit t i = .back home hhome) :
    ∃ ends : t.Ends i, w.Adds home (t.expansion i ends) := by
  obtain ⟨below, hbelow⟩ := t.exists_gather_eq pathGathering
  obtain ⟨hqueryable, hadds⟩ :=
    (adds_of_back fun i ends => (hbelow i ends).2).1 w i hr home hhome hback
  refine ⟨hqueryable.ends, ?_⟩
  rwa [ShapeTable.expansion, (hbelow i hqueryable.ends).1]

theorem sound_of_back
    {hhome : home.lineage = w.lineage}
    (hr : w.registry.Sound t) (hback : w.visit t i = .back home hhome) :
    home.registry.Sound t := by
  have hlast := (registry_invariant (P := Registry.Sound t)
    fun _ i hr => Registry.sound_resolve hr i).1 w i hr
  rwa [hback] at hlast

/-- Before each field of a shape, the lineage and the place are those of the shape. -/
theorem GoesOn.unchanged
    (h : GoesOn t w own now todo) (hr : w.registry.Sound t) :
    now.registry.Sound t ∧ now.lineage = w.lineage ∧ now.place = w.place ∧ ∀ f ∈ todo, f ∈ own := by
  induction h with
  | here w own =>
      exact ⟨hr, rfl, rfl, fun _ => id⟩
  | leaf _ _ ih =>
      rw [leaf_eq] at ih
      obtain ⟨hsound, hlineage, hplace, htodo⟩ := ih hr
      exact ⟨hsound, hlineage, hplace, fun f hf => List.mem_cons_of_mem _ (htodo f hf)⟩
  | @nested w mid now name child rest todo hmid hvisit _ ih =>
      have hdescend : (w.descend name).registry.Sound t := hr
      obtain ⟨_, hmidplace, _⟩ := exists_adds_expansion hdescend hvisit
      have hmidsound := sound_of_back hdescend hvisit
      obtain ⟨hsound, hlineage, hplace, htodo⟩ := ih hmidsound
      refine ⟨hsound, hlineage.trans (lineage_cutBack hmid), ?_, fun f hf => ?_⟩
      · exact hplace.trans (place_cutBack hmidplace)
      · exact List.mem_cons_of_mem _ (htodo f hf)

theorem entry_start
    (hr : r.Sound t) (root : ι) :
    Entry t root (start r) root where
  sound := hr
  nodup := List.nodup_nil
  descent := ⟨[], .root, rfl⟩

/-- What holds at an entry holds at the entries inside of it. -/
theorem Entry.nested
    {inside : Walk ι}
    (h : Entry t root w i)
    (henter : w.enter t i = (.ok own, inside))
    (hgoes : GoesOn t inside own now (⟨name, .nested child⟩ :: rest)) :
    Entry t root (now.descend name) child := by
  obtain ⟨hi, rfl, c, hc, rfl⟩ := (enter_eq_ok h.sound).mp henter
  obtain ⟨names, hdescent, hplace⟩ := h.descent
  obtain ⟨hsound, hlineage, hnow, hown⟩ := hgoes.unchanged (Registry.sound_resolve h.sound i)
  have hfield : (⟨name, .nested child⟩ : DeclaredField ι) ∈ (t.shape i).fields := by
    rw [← t.declared_of_check hc]
    exact List.mem_map_of_mem (hown _ List.mem_cons_self)
  have hbelow : (now.descend name).lineage = w.lineage ++ [i] := hlineage
  refine ⟨hsound, ?_, names ++ [name], ?_, ?_⟩
  · rw [hbelow, List.nodup_append_comm]
    exact List.nodup_cons.mpr ⟨hi, h.nodup⟩
  · rw [hbelow]
    exact hdescent.down hfield
  · have hsame : now.place = w.place := hnow
    simp [descend, extend, hsame, hplace, String.append_assoc]

/-- The invariant holds at every entry, and the lineage tells the depth of the entry. -/
theorem Entered.entry
    (h : Entered t r root depth w i) (hr : r.Sound t) :
    Entry t root w i ∧ depth = w.lineage.length + 1 := by
  induction h with
  | root =>
      exact ⟨entry_start hr root, rfl⟩
  | @nested depth w inside now i child name own rest _ henter hgoes ih =>
      obtain ⟨hentry, hdepth⟩ := ih
      refine ⟨hentry.nested henter hgoes, ?_⟩
      obtain ⟨_, rfl, _⟩ := (enter_eq_ok hentry.sound).mp henter
      obtain ⟨_, hlineage, _⟩ := hgoes.unchanged (Registry.sound_resolve hentry.sound i)
      have hbelow : (now.descend name).lineage = w.lineage ++ [i] := hlineage
      rw [hbelow, List.length_append, List.length_singleton, hdepth]

/-- Walks are inside of one another at most once for each shape reached, and once more. -/
theorem Entered.depth_le
    (h : Entered t r root depth w i) (hr : r.Sound t) :
    depth ≤ {j | t.Reaches root j}.ncard + 1 := by
  obtain ⟨hentry, hdepth⟩ := h.entry hr
  obtain ⟨names, hdescent, _⟩ := hentry.descent
  have hlength := hdescent.length_le hentry.nodup
  omega

end Invariant
end Walk
end ShapeQuery
