import ShapeQuery.Proofs.LeafChains
import ShapeQuery.Proofs.RequestText

/-!
# Requests and their history

What a catalogue was asked before never shows in the text of a request.

**Field list.**  The other shapes of a table do not change the expansion of a game, not
even if they nest it (`Places.expansion_eq`).  So a game has one field list, whatever has been
resolved: the paths of its own table, joined (`fieldList_eq_fieldText`).

**Slot.**  A catalogue keeps the field list from its first request on.  One request
fills the slot or finds it filled, and leaves a sound registry (`ask_eq`); a run of
requests therefore writes it once (`after_fst`).

**Texts.**  In the text of a request the field list stands behind the search clause, if
there is one, and before all other clauses.
-/

namespace ShapeQuery

section Places

variable {ι κ : Type} {t : ShapeTable ι} {base : ShapeTable κ} {place : κ → ι} {k : κ}

namespace ShapeTable

/-- A shape that a table has from another one expands as it does there. -/
theorem Places.expansion_eq
    (hplaces : t.Places base place) (ends : base.Ends k) (endsPlace : t.Ends (place k)) :
    t.expansion (place k) endsPlace = base.expansion k ends := by
  obtain ⟨below, hbelow⟩ := base.exists_gather_eq pathGathering
  obtain ⟨belowPlace, hbelowPlace⟩ := t.exists_gather_eq pathGathering
  rw [expansion, expansion, (hbelow k ends).1, (hbelowPlace (place k) endsPlace).1]
  induction ends with
  | intro k hchildren ih =>
      have hfields : (t.shape (place k)).fields =
          (base.shape k).fields.map (DeclaredField.map place) := by
        rw [hplaces k]
        rfl
      rw [(hbelow k (.intro k hchildren)).2, (hbelowPlace (place k) endsPlace).2, hfields,
        List.flatMap_map]
      refine List.flatMap_congr fun d hd => ?_
      rcases d with ⟨name, content⟩
      cases content with
      | nested child =>
          have hchild := ih child ⟨_, hd, rfl⟩
            (endsPlace.of_nests (hplaces.nests_iff.mpr ⟨child, ⟨_, hd, rfl⟩, rfl⟩))
          simp [DeclaredField.map, FieldContent.map, Gathering.ofField, pathGathering, hchild]
      | scalar | scalarCollection | nestedCollection =>
          rfl

end ShapeTable
end Places

section FieldList

variable {ι : Type} [DecidableEq ι] {t : GameTable ι} {r : Registry ι}

namespace GameShape

/-- The field paths of a game as one field list. -/
def fieldText : String :=
  Token.fieldSeparator.intercalate (table.expansion .game queryable_game.ends)

/-- In every sound registry, and among any other shapes, a game has its own field list. -/
theorem fieldList_eq_fieldText
    (hr : r.Sound t.toShapeTable) :
    (r.fieldList t.toShapeTable (t.place .game)).1 = .ok fieldText := by
  obtain ⟨ps, hps⟩ :=
    (Registry.paths_eq_ok_iff_queryable hr).mpr (t.places.queryable queryable_game)
  obtain ⟨ends, rfl⟩ := hr.paths_eq_pathsOf hps
  rw [Registry.fieldList_eq, hps, ShapeTable.pathsOf_nameTree,
    t.places.expansion_eq queryable_game.ends]
  rfl

/-- No name of a field that a game or its cover has ends a clause. -/
theorem terminator_notMem_fieldText :
    ';' ∉ fieldText.toList := by
  have hnames : ∀ i, ∀ d ∈ (table.shape i).fields, ';' ∉ d.name.toList := by
    intro i
    cases i <;> decide
  refine notMem_intercalate (by decide) fun p hp => ?_
  obtain ⟨ds, hds, rfl⟩ := (ShapeTable.mem_expansion_iff _).mp hp
  refine notMem_intercalate (by decide) (List.forall_mem_map.mpr fun d hd => ?_)
  obtain ⟨i, _, hi⟩ := hds.exists_reaches d hd
  exact hnames i d hi

end GameShape
end FieldList

section History

variable {ι : Type} [DecidableEq ι] {t : GameTable ι}
variable {c : GameCatalog} {r : Registry ι}

/-- The search clause of a request, or no text. -/
def GameRequest.searchText (request : GameRequest) : String :=
  (request.term.map fun term => (Clause.search term).render).getD ""

/-- The text of a call is its search clause, the field list, and what is behind it. -/
theorem GameCall.render_query
    (call : GameCall) (b : ReleaseBounds) (fields : String) :
    (call.query b fields).render =
      call.request.searchText ++ (Clause.fields (.list fields)).render ++ (call.tail b).render := by
  cases hterm : call.request.term with
  | none =>
      simp [render_query_of_none hterm, GameRequest.searchText, hterm]
  | some term =>
      simp [render_query_of_some hterm, GameRequest.searchText, hterm]

namespace GameCatalog

/-- The catalogue and the registry that requests leave behind. -/
def after (t : GameTable ι) (c : GameCatalog) (r : Registry ι) :
    List GameCall → GameCatalog × Registry ι
  | [] => (c, r)
  | call :: rest =>
    match c.ask t r call with
    | (_, c, r) => after t c r rest

/-- One request is answered, fills the slot or finds it filled, and keeps the registry sound. -/
theorem ask_eq
    (hc : c.Keeps GameShape.fieldText) (hr : r.Sound t.toShapeTable)
    (call : GameCall) :
    ∃ registry : Registry ι,
      registry.Sound t.toShapeTable ∧
      c.ask t r call =
        (.ok (call.query c.bounds GameShape.fieldText).render,
          { c with fieldList := some GameShape.fieldText }, registry) := by
  obtain ⟨registry, hregistry, hfields⟩ :=
    exists_fields_eq (GameShape.fieldList_eq_fieldText hr) hc hr
  refine ⟨registry, hregistry, ?_⟩
  rw [ask, hfields]
  rfl

theorem ask_fst
    (hc : c.Keeps GameShape.fieldText) (hr : r.Sound t.toShapeTable)
    (call : GameCall) :
    (c.ask t r call).1 = .ok (call.query c.bounds GameShape.fieldText).render := by
  obtain ⟨_, _, hask⟩ := ask_eq hc hr call
  rw [hask]

theorem keeps_some
    (b : ReleaseBounds) (text : String) :
    Keeps ⟨b, some text⟩ text := by
  simp [Keeps]

theorem keeps_ofBounds
    (b : ReleaseBounds) (text : String) :
    (ofBounds b).Keeps text := by
  simp [Keeps, ofBounds]

/-- Requests leave the slot as it was if there is none, and else filled by the first of them. -/
theorem after_fst
    (hc : c.Keeps GameShape.fieldText) (hr : r.Sound t.toShapeTable)
    (calls : List GameCall) :
    (c.after t r calls).1 =
      ⟨c.bounds, if calls = [] then c.fieldList else some GameShape.fieldText⟩ := by
  induction calls generalizing c r with
  | nil =>
      rfl
  | cons call rest ih =>
      obtain ⟨registry, hregistry, hask⟩ := ask_eq hc hr call
      rw [after, hask, ih (keeps_some c.bounds _) hregistry]
      simp

/--
A catalogue with fixed bounds, over a registry that any calls have left behind, answers
every request of a run with the text that a new catalogue gives for that request alone,
over whatever registry; and with the run behind it, it still answers every request so,
also if its registry has been used for anything else meanwhile.  The text holds the field
paths of a game right behind the search clause, if there is one.  The slot for the field
list is empty before the first request; the first request fills it with that list, and no
later one changes it.

The registry may hold any shapes, also such as nest a game or its cover.
-/
theorem askAll_history_independent
    (t : GameTable ι) (earlier elsewhere : List (RegistryCall ι))
    (b : ReleaseBounds) (calls : List GameCall) :
    let r := Registry.empty.after t.toShapeTable earlier
    let alone := fun call =>
      ((ofBounds b).ask t (Registry.empty.after t.toShapeTable elsewhere) call).1
    let fields := Token.fieldSeparator.intercalate
      (GameShape.table.expansion .game GameShape.queryable_game.ends)
    (r.fieldList t.toShapeTable (t.place .game)).1 = .ok fields ∧
    (ofBounds b).askAll t r calls = calls.map alone ∧
    (∀ call meanwhile,
      (((ofBounds b).after t r calls).1.ask t
        (Registry.empty.after t.toShapeTable meanwhile) call).1 = alone call) ∧
    (∀ call, ∃ rest,
      alone call =
        .ok (call.request.searchText ++ (Token.fields ++ " " ++ fields ++ ";") ++ rest)) ∧
    ((ofBounds b).after t r calls).1 =
      ⟨b, if calls = [] then none else some fields⟩ := by
  intro r alone fields
  have hr : r.Sound t.toShapeTable := Registry.sound_after t.toShapeTable earlier
  have hlist : ∀ r : Registry ι, r.Sound t.toShapeTable →
      (r.fieldList t.toShapeTable (t.place .game)).1 = .ok fields :=
    fun _ hr => GameShape.fieldList_eq_fieldText hr
  have hnew : (ofBounds b).Keeps fields := keeps_ofBounds b fields
  have halone : ∀ call, alone call = .ok (call.query b fields).render :=
    fun call => ask_fst hnew (Registry.sound_after t.toShapeTable elsewhere) call
  have hafter : ((ofBounds b).after t r calls).1 =
      ⟨b, if calls = [] then none else some fields⟩ := after_fst hnew hr calls
  refine ⟨hlist r hr, ?_, fun call meanwhile => ?_, fun call => ⟨(call.tail b).render, ?_⟩, hafter⟩
  · rw [askAll_eq_map hlist hnew hr]
    exact List.map_congr_left fun call _ => (halone call).symm
  · have hkeeps : Keeps ⟨b, if calls = [] then none else some fields⟩ fields := by
      split
      · exact hnew
      · exact keeps_some b fields
    rw [hafter, halone, ask_fst hkeeps (Registry.sound_after t.toShapeTable meanwhile)]
    rfl
  · rw [halone, GameCall.render_query]
    rfl

end GameCatalog
end History
end ShapeQuery
