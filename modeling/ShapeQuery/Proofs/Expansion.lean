import ShapeQuery.Proofs.Nesting
import ShapeQuery.Proofs.SoundWalk
import ShapeQuery.Sample
import Mathlib

/-!
# The expansion of a shape

The expansion of a shape is its list of field paths as a recursion on nesting: it
goes through the declared fields in order, a leaf field gives its own name, and a
nested field gives the expansion of the shape nested in it, each path behind the
name of the field.

A walk does not build such lists.  It carries one place that it extends and cuts
back, one lineage and one list of paths.  Here a walk that comes back is shown to
have added the expansion of the shape, put behind the place, and to have the place
that it set out from.
-/

namespace ShapeQuery

section Definition

variable {ι : Type}

/-- A leaf field gives its name, and a nested field the inner paths behind its name. -/
def pathGathering : ShapeTable.Gathering ι String where
  leaf name := [name]
  nested name _ inner := inner.map fun path => name ++ Token.pathSeparator ++ path

/-- The field paths of a shape, by recursion on nesting. -/
def ShapeTable.expansion (t : ShapeTable ι) (i : ι) (ends : t.Ends i) : List String :=
  t.gather pathGathering i ends

end Definition

namespace Walk

variable {ι : Type}

/-- A walk that came back to its place has added paths, each behind that place. -/
def Adds (w home : Walk ι) (paths : List String) : Prop :=
  home.place = w.place ∧ home.paths = w.paths ++ paths.map (w.place ++ ·)

theorem adds_leaf
    {w home : Walk ι} {name : String} {paths : List String}
    (h : (w.leaf name).Adds home paths) :
    w.Adds home ([name] ++ paths) := by
  obtain ⟨hplace, hpaths⟩ := h
  rw [leaf_eq] at hplace hpaths
  exact ⟨hplace, by simp [hpaths]⟩

/-- The paths added inside of a nested field stand behind its name. -/
theorem adds_nested
    {w mid home : Walk ι} {name : String} {child : ι} {inner paths : List String}
    (hchild : (w.descend name).Adds mid inner)
    (hrest : (mid.cutBack w.place.length).Adds home paths) :
    w.Adds home (pathGathering.nested name child inner ++ paths) := by
  obtain ⟨hmid, hinner⟩ := hchild
  obtain ⟨hplace, hpaths⟩ := hrest
  have hback := place_cutBack hmid
  rw [hback] at hplace hpaths
  refine ⟨hplace, ?_⟩
  have hkept : (mid.cutBack w.place.length).paths = mid.paths := rfl
  rw [hpaths, hkept, hinner]
  simp [pathGathering, descend, extend, String.append_assoc, Function.comp_def]

variable [DecidableEq ι] {t : ShapeTable ι} {below : ι → List String}

/--
A walk that comes back from a shape has added what the recursion equation gives
for that shape, and every shape it went through is queryable.
-/
theorem adds_of_back
    (hbelow : ∀ i, t.Ends i →
      below i = (t.shape i).fields.flatMap (pathGathering.ofField below)) :
    (∀ (w : Walk ι) i, w.registry.Sound t →
      ∀ home hhome, w.visit t i = .back home hhome →
        t.Queryable i ∧ w.Adds home (below i)) ∧
    (∀ (w : Walk ι) own, w.registry.Sound t →
      ∀ home hhome, w.fields t own = .back home hhome →
        (∀ child, ShapeTable.NestedIn own child → t.Queryable child) ∧
        w.Adds home (pathGathering.ofFields below own)) := by
  apply sound_walk_induction t
  case visit =>
    intro w i hr ih home hhome hback
    obtain ⟨hi, c, inner, hinner, hc, hfields, rfl⟩ := (visit_eq_back_of_sound hr).mp hback
    obtain ⟨hown, hadds⟩ := ih c hi hc inner hinner hfields
    have hqueryable : t.Queryable i :=
      .intro hc fun child hchild => hown child ((t.nests_iff_of_check hc).mp hchild)
    rw [ShapeTable.Gathering.ofFields_of_check hc, ← hbelow i hqueryable.ends] at hadds
    exact ⟨hqueryable, hadds⟩
  case nil =>
    intro w hr home hhome hback
    rw [fields_nil] at hback
    cases hback
    refine ⟨fun child hchild => absurd hchild ShapeTable.not_nestedIn_nil, ?_⟩
    simp [Adds]
  case leaf =>
    intro w f rest hr hleaf ih home hhome hback
    rw [fields_leaf t w rest hleaf, Outcome.since_eq_back] at hback
    obtain ⟨hown, hadds⟩ := ih home _ hback
    rw [ShapeTable.Gathering.ofFields_leaf hleaf]
    refine ⟨fun child hchild => ?_, adds_leaf hadds⟩
    exact hown child ((ShapeTable.nestedIn_leaf hleaf).mp hchild)
  case nested =>
    intro w name child rest hr ihvisit ihrest home hhome hback
    obtain ⟨mid, hmid, hvisit, hrest⟩ := fields_nested_eq_back.mp hback
    obtain ⟨hchild, hinner⟩ := ihvisit mid hmid hvisit
    obtain ⟨hown, hadds⟩ := ihrest mid hmid hvisit home _ hrest
    rw [ShapeTable.Gathering.ofFields_nested]
    refine ⟨fun other hother => ?_, adds_nested hinner hadds⟩
    rcases ShapeTable.nestedIn_nested.mp hother with rfl | hother
    · exact hchild
    · exact hown other hother

end Walk

section Paths

variable {ι : Type} [DecidableEq ι] {t : ShapeTable ι}

/--
Whatever has been asked of a registry before, the field paths it gives for a shape
are the expansion of the shape, and the field list is these paths joined.
-/
theorem paths_eq_expansion
    (t : ShapeTable ι) (calls : List (RegistryCall ι)) (root : ι) (ps : List String)
    (h : ((Registry.empty.after t calls).paths t root).1 = .ok ps) :
    (∃ ends : t.Ends root, ps = t.expansion root ends) ∧
    ((Registry.empty.after t calls).fieldList t root).1 =
      .ok (Token.fieldSeparator.intercalate ps) := by
  refine ⟨?_, by rw [Registry.fieldList_eq, h]; rfl⟩
  obtain ⟨below, hbelow⟩ := t.exists_gather_eq pathGathering
  obtain ⟨home, hhome, hback, rfl⟩ := Registry.paths_eq_ok.mp h
  obtain ⟨hqueryable, _, hpaths⟩ :=
    (Walk.adds_of_back fun i ends => (hbelow i ends).2).1 (Walk.start _) root
      (Registry.sound_after t calls) home hhome hback
  refine ⟨hqueryable.ends, ?_⟩
  have hexpansion := (hbelow root hqueryable.ends).1
  simp [hpaths, Walk.start, ShapeTable.expansion, hexpansion]

/-- A shape nested between two fields, one of its own already resolved. -/
theorem paths_eq_expansion_game :
    let r := Registry.empty.after SampleShape.table [.resolve .cover]
    (r.paths SampleShape.table .game).1 = .ok ["id", "cover.url", "name"] ∧
    (∃ ends : SampleShape.table.Ends .game,
      ["id", "cover.url", "name"] = SampleShape.table.expansion .game ends) ∧
    (r.fieldList SampleShape.table .game).1 =
      .ok (Token.fieldSeparator.intercalate ["id", "cover.url", "name"]) := by
  have h : ((Registry.empty.after SampleShape.table [.resolve .cover]).paths
      SampleShape.table .game).1 = .ok ["id", "cover.url", "name"] := by
    cbv
  exact ⟨h, paths_eq_expansion SampleShape.table [.resolve .cover] .game _ h⟩

end Paths
end ShapeQuery
