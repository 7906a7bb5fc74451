import ShapeQuery.Game.Request
import ShapeQuery.Proofs.CheckOutcome
import ShapeQuery.Proofs.PathsOutcome
import ShapeQuery.Proofs.CacheTransparency

/-!
# The field list of a game

The shapes of the game catalogue stand in one table with whatever other shapes there
are, and those may nest a game.  What is nested in a game is a shape of the catalogue
again, so a game is queryable in such a table because it is queryable alone
(`ShapeTable.Places.queryable`), and it has a field list.

**Runs.**  A catalogue keeps the field list or nothing, and the registry stays sound.
Both are kept up by every request, whatever it asks for, so all requests of a run are
answered, and with the same field list (`askAll_eq_map`).
-/

namespace ShapeQuery

section Places

variable {ι κ : Type}

theorem FieldContent.map_eq_nested_iff
    {f : κ → ι} {content : FieldContent κ} {i : ι} :
    content.map f = .nested i ↔ ∃ k, content = .nested k ∧ i = f k := by
  cases content <;> simp [map, eq_comm]

theorem DeclaredField.fit_map
    {f : κ → ι} {d : DeclaredField κ} (hd : d.Fit) :
    (d.map f).Fit := by
  obtain ⟨name, content⟩ := d
  refine ⟨hd.named, fun child => ?_⟩
  cases content with
  | nestedCollection shape =>
      exact absurd rfl (hd.single shape)
  | scalar | scalarCollection | nested =>
      simp [map, FieldContent.map]

namespace ShapeTable

variable {t : ShapeTable ι} {base : ShapeTable κ} {place : κ → ι} {k : κ}

/-- A shape that a table has from another one nests what it nests there. -/
theorem Places.nests_iff
    (hplaces : t.Places base place) {child : ι} :
    t.Nests (place k) child ↔ ∃ own, base.Nests k own ∧ child = place own := by
  simp only [Nests, hplaces k, Shape.map, List.mem_map, exists_exists_and_eq_and,
    DeclaredField.map, FieldContent.map_eq_nested_iff]
  constructor
  · rintro ⟨d, hd, own, hcontent, hchild⟩
    exact ⟨own, ⟨d, hd, hcontent⟩, hchild⟩
  · rintro ⟨own, ⟨d, hd, hcontent⟩, hchild⟩
    exact ⟨d, hd, own, hcontent, hchild⟩

theorem Places.passes
    (hplaces : t.Places base place) (h : base.Passes k) :
    t.Passes (place k) := by
  obtain ⟨hne, hfit⟩ := Shape.exists_check_iff.mp h
  refine Shape.exists_check_iff.mpr ⟨by simpa [hplaces k, Shape.map] using hne, ?_⟩
  simp only [hplaces k, Shape.map, List.forall_mem_map]
  exact fun d hd => DeclaredField.fit_map (hfit d hd)

/-- What is queryable alone is queryable among other shapes. -/
theorem Places.queryable
    (hplaces : t.Places base place) (h : base.Queryable k) :
    t.Queryable (place k) := by
  induction h with
  | intro hc _ ih =>
      obtain ⟨c, hplace⟩ := hplaces.passes ⟨_, hc⟩
      refine .intro hplace fun child hchild => ?_
      obtain ⟨own, hown, rfl⟩ := hplaces.nests_iff.mp hchild
      exact ih own hown

end ShapeTable
end Places

section Games

variable {ι : Type} [DecidableEq ι] {t : GameTable ι}
variable {c : GameCatalog} {r : Registry ι} {text : String}

namespace GameShape

theorem passes
    (i : GameShape) :
    table.Passes i := by
  cases i with
  | game => exact ⟨_, rfl⟩
  | image => exact ⟨_, rfl⟩

theorem not_nests_image
    {child : GameShape} :
    ¬ table.Nests .image child := by
  simp [ShapeTable.Nests, table, imageShape]

theorem eq_image_of_nests_game
    {child : GameShape} (h : table.Nests .game child) :
    child = .image := by
  simp only [ShapeTable.Nests, table, gameShape, List.exists_mem_cons_iff] at h
  simpa [eq_comm] using h

theorem queryable_game :
    table.Queryable .game := by
  obtain ⟨_, himage⟩ := passes .image
  obtain ⟨_, hgame⟩ := passes .game
  refine .intro hgame fun child hchild => ?_
  rw [eq_image_of_nests_game hchild]
  exact .intro himage fun _ h => absurd h not_nests_image

/-- Whatever is resolved, and whatever other shapes there are, a game has one field list. -/
theorem exists_fieldList_eq
    (t : GameTable ι) :
    ∃ text, ∀ r : Registry ι, r.Sound t.toShapeTable →
      (r.fieldList t.toShapeTable (t.place .game)).1 = .ok text := by
  have hempty := Registry.sound_empty t.toShapeTable
  obtain ⟨text, htext⟩ := (Registry.fieldList_fst_cases _ _ _).1.mpr
    ((Registry.paths_eq_ok_iff_queryable hempty).mpr (t.places.queryable queryable_game))
  exact ⟨text, fun r hr => by rw [hr.fieldList_fst, htext]⟩

end GameShape

/-- The query of a call, for a given field list. -/
def GameCall.query (call : GameCall) (b : ReleaseBounds) (fields : String) : Query :=
  call.request.complete b call.offset call.limit (Query.empty.select fields)

namespace GameCatalog

/-- The catalogue keeps the field list, or nothing yet. -/
def Keeps (c : GameCatalog) (text : String) : Prop :=
  ∀ kept, c.fieldList = some kept → kept = text

/-- The first request finds the field list, and every later one has it. -/
theorem exists_fields_eq
    (htext : (r.fieldList t.toShapeTable (t.place .game)).1 = .ok text)
    (hc : c.Keeps text) (hr : r.Sound t.toShapeTable) :
    ∃ registry : Registry ι,
      registry.Sound t.toShapeTable ∧
      c.fields t r = (.ok text, { c with fieldList := some text }, registry) := by
  obtain ⟨b, fieldList⟩ := c
  cases fieldList with
  | some kept =>
      refine ⟨r, hr, ?_⟩
      rw [← hc kept rfl]
      rfl
  | none =>
      have hanswer := Registry.sound_answer hr (.fieldList (t.place .game))
      rcases hlist : r.fieldList t.toShapeTable (t.place .game) with ⟨result, registry⟩
      obtain rfl : result = .ok text := by simpa [hlist] using htext
      exact ⟨registry, by simpa [Registry.answer, hlist] using hanswer, by simp [fields, hlist]⟩

/-- A catalogue answers all requests, and each of them as if it were the only one. -/
theorem askAll_eq_map
    (htext : ∀ r : Registry ι, r.Sound t.toShapeTable →
      (r.fieldList t.toShapeTable (t.place .game)).1 = .ok text)
    (hc : c.Keeps text) (hr : r.Sound t.toShapeTable) (calls : List GameCall) :
    c.askAll t r calls = calls.map fun call => .ok (call.query c.bounds text).render := by
  induction calls generalizing c r with
  | nil =>
      rfl
  | cons call rest ih =>
      obtain ⟨registry, hregistry, hfields⟩ := exists_fields_eq (htext r hr) hc hr
      have hkeeps : Keeps { c with fieldList := some text } text := by simp [Keeps]
      simp only [askAll, ask, hfields, List.map_cons, ih hkeeps hregistry]
      rfl

end GameCatalog
end Games
end ShapeQuery
