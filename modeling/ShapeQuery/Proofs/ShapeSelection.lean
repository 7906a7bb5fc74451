import ShapeQuery.Proofs.LastCalls
import Mathlib

/-!
# Selecting the fields of a shape

Selecting a shape is selecting its field paths: it fails as finding them fails, and
otherwise it sets the same clause as selecting the paths one by one, although the two
join their texts in different ways (`selectShape_fst`).

**Failed calls.**  A call that fails leaves the query as it was, but not the registry:
what was resolved before the failure is kept there.

**Runs.**  Over sound registries a call shows the same whatever is resolved
(`shown_call`).  So a run shows the same when other registries stand behind its calls,
and when its failing calls are left out.
-/

namespace ShapeQuery

variable {ι : Type} [DecidableEq ι] {t : ShapeTable ι}

/-- Selecting a shape does to a query what selecting its field paths does. -/
theorem Query.selectShape_fst
    (q : Query) (t : ShapeTable ι) (r : Registry ι) (i : ι) :
    (q.selectShape t r i).1 = (r.paths t i).1.map q.selectFields := by
  rw [Query.selectShape, Registry.fieldList_eq]
  cases (r.paths t i).1 with
  | error e =>
      rfl
  | ok ps =>
      simp only [Except.map, Query.selectFields, fieldList_eq_intercalate]

/-- Selecting fields sets the fields clause and no other. -/
theorem Query.held_selectFields
    (q : Query) (fields : List String) (k : ClauseKind) :
    (q.selectFields fields).held k =
      if k = .fields then some (.fields (.list (", ".intercalate fields))) else q.held k := by
  rw [Query.selectFields, fieldList_eq_intercalate]
  cases k <;> rfl

namespace QueryCall

/-- The call selects a shape, through the shared registry or through one that calls left. -/
inductive Selects (t : ShapeTable ι) (i : ι) : QueryCall ι → Prop
  | shared :
      Selects t i (.selectShape i)
  | own (resolved : List (RegistryCall ι)) :
      Selects t i (.selectShapeWith (Registry.empty.after t resolved) i)

/-- The calls differ at most in the registry through which they select a shape. -/
inductive SameUpToRegistry (t : ShapeTable ι) : QueryCall ι → QueryCall ι → Prop
  | same (call : QueryCall ι) :
      SameUpToRegistry t call call
  | selects {call call' : QueryCall ι} {i : ι} :
      Selects t i call → Selects t i call' → SameUpToRegistry t call call'

end QueryCall

namespace QuerySession

variable {s s' : QuerySession ι} {c c' : QueryCall ι} {calls calls' : List (QueryCall ι)}

/-- What a call shows: how it failed, and the query after it. -/
def shown (outcome : Option ShapeError × QuerySession ι) : Option ShapeError × Query :=
  (outcome.1, outcome.2.query)

/-- The calls of a run that do not fail in it, each with its outcome. -/
def unfailing (t : ShapeTable ι) (s : QuerySession ι) (calls : List (QueryCall ι)) :
    List (QueryCall ι × (Option ShapeError × QuerySession ι)) :=
  (calls.zip (s.trace t calls)).filter fun step => step.2.1.isNone

theorem shown_selectShape
    (t : ShapeTable ι) (s : QuerySession ι) (i : ι) :
    shown (s.call t (.selectShape i)) =
      match (s.registry.fieldList t i).1 with
      | .error e => (some e, s.query)
      | .ok fields => (none, s.query.select fields) := by
  rw [call, Query.selectShape]
  rcases s.registry.fieldList t i with ⟨e | fields, registry⟩
  · rfl
  · rfl

theorem shown_selectShapeWith
    (t : ShapeTable ι) (s : QuerySession ι) (r : Registry ι) (i : ι) :
    shown (s.call t (.selectShapeWith r i)) = shown (call t ⟨s.query, r⟩ (.selectShape i)) := by
  rw [shown_selectShape, call, Query.selectShape]
  rcases r.fieldList t i with ⟨e | fields, registry⟩
  · rfl
  · rfl

/-- Over a sound registry, a call shows what it shows over the empty one. -/
theorem shown_call
    (hs : s.registry.Sound t) (c : QueryCall ι) :
    shown (s.call t c) = shown (call t ⟨s.query, .empty⟩ c) := by
  cases c with
  | selectShape i =>
      rw [shown_selectShape, shown_selectShape, hs.fieldList_fst]
  | selectShapeWith r i =>
      rw [shown_selectShapeWith, shown_selectShapeWith]
  | _ =>
      rfl

theorem shown_call_of_selects
    {i : ι}
    (hs : s.registry.Sound t) (h : c.Selects t i) :
    shown (s.call t c) = shown (call t ⟨s.query, .empty⟩ (.selectShape i)) := by
  cases h with
  | shared =>
      exact shown_call hs _
  | own resolved =>
      rw [shown_selectShapeWith]
      exact shown_call (s := ⟨s.query, _⟩) (Registry.sound_after t resolved) _

/-- Over sound registries, the registry behind a call does not show. -/
theorem shown_call_congr
    (hs : s.registry.Sound t) (hs' : s'.registry.Sound t) (hquery : s.query = s'.query)
    (h : c.SameUpToRegistry t c') :
    shown (s.call t c) = shown (s'.call t c') := by
  cases h with
  | same =>
      rw [shown_call hs, shown_call hs', hquery]
  | selects h h' =>
      rw [shown_call_of_selects hs h, shown_call_of_selects hs' h', hquery]

/-- Over sound registries, the registries behind the calls of a run do not show. -/
theorem shown_trace_congr
    (hs : s.registry.Sound t) (hs' : s'.registry.Sound t) (hquery : s.query = s'.query)
    (h : List.Forall₂ (QueryCall.SameUpToRegistry t) calls calls') :
    (s.trace t calls).map shown = (s'.trace t calls').map shown ∧
    (s.run t calls).query = (s'.run t calls').query := by
  induction h generalizing s s' with
  | nil =>
      exact ⟨rfl, hquery⟩
  | @cons c c' rest rest' hc _ ih =>
      have hshown := shown_call_congr hs hs' hquery hc
      have hnext : (s.call t c).2.query = (s'.call t c').2.query := congrArg Prod.snd hshown
      obtain ⟨htrace, hrun⟩ := ih (sound_call hs c) (sound_call hs' c') hnext
      refine ⟨?_, hrun⟩
      rw [trace, trace, List.map_cons, List.map_cons, hshown, htrace]

/-- A call that fails leaves the query as it was. -/
theorem query_of_failed
    {e : ShapeError}
    (h : (s.call t c).1 = some e) :
    (s.call t c).2.query = s.query := by
  have hselect : ∀ (s : QuerySession ι) i,
      (shown (s.call t (.selectShape i))).1 = some e →
        (shown (s.call t (.selectShape i))).2 = s.query := by
    intro s i h
    rw [shown_selectShape] at h ⊢
    split at h
    next => rfl
    next => cases h
  cases c with
  | selectShape i =>
      exact hselect s i h
  | selectShapeWith r i =>
      have hshown := shown_selectShapeWith t s r i
      have hfailed : (shown (s.call t (.selectShapeWith r i))).1 = some e := h
      rw [hshown] at hfailed
      exact (congrArg Prod.snd hshown).trans (hselect ⟨s.query, r⟩ i hfailed)
  | _ =>
      cases h

theorem unfailing_cons
    (t : ShapeTable ι) (s : QuerySession ι) (c : QueryCall ι) (rest : List (QueryCall ι)) :
    s.unfailing t (c :: rest) =
      match (s.call t c).1 with
      | none => (c, s.call t c) :: (s.call t c).2.unfailing t rest
      | some _ => (s.call t c).2.unfailing t rest := by
  rw [unfailing, trace, List.zip_cons_cons, List.filter_cons]
  cases h : (s.call t c).1 <;> simp [unfailing]

/-- Without its failing calls, a run shows the same for all others and ends with the same query. -/
theorem shown_trace_unfailing
    (hs : s.registry.Sound t) (calls : List (QueryCall ι)) :
    (s.trace t ((s.unfailing t calls).map Prod.fst)).map shown =
      (s.unfailing t calls).map (fun step => shown step.2) ∧
    (s.run t ((s.unfailing t calls).map Prod.fst)).query = (s.run t calls).query := by
  induction calls generalizing s with
  | nil =>
      exact ⟨rfl, rfl⟩
  | cons c rest ih =>
      have hnext := sound_call hs c
      obtain ⟨htrace, hrun⟩ := ih hnext
      rw [unfailing_cons]
      cases hc : (s.call t c).1 with
      | none =>
          refine ⟨?_, hrun⟩
          simp only [List.map_cons, trace, htrace]
      | some e =>
          have hsame : List.Forall₂ (QueryCall.SameUpToRegistry t)
              (((s.call t c).2.unfailing t rest).map Prod.fst)
              (((s.call t c).2.unfailing t rest).map Prod.fst) :=
            List.forall₂_same.mpr fun c _ => .same c
          obtain ⟨htrace', hrun'⟩ :=
            shown_trace_congr hs hnext (query_of_failed hc).symm hsame
          exact ⟨htrace'.trans htrace, hrun'.trans hrun⟩

end QuerySession

/--
Selecting a shape succeeds iff the shape has field paths, and then it gives the query in
which these paths are selected; otherwise it fails with the error with which finding the
paths fails.  Selecting fields sets the fields clause to the fields with a comma and a space
between them, and leaves all other clauses as they are.  In a run of calls,
over a registry that any calls have left behind, leaving out the calls that fail changes
neither what the other calls show nor the query at the end; and nothing changes when
other such registries stand behind the run and behind its calls that select a shape.
-/
theorem shape_selection_transparent
    (t : ShapeTable ι) :
    (∀ (q : Query) (r : Registry ι) (i : ι),
      (∀ q', (q.selectShape t r i).1 = .ok q' ↔
        ∃ ps, (r.paths t i).1 = .ok ps ∧ q' = q.selectFields ps) ∧
      ∀ e, (q.selectShape t r i).1 = .error e ↔ (r.paths t i).1 = .error e) ∧
    (∀ (q : Query) (fields : List String) (k : ClauseKind),
      (q.selectFields fields).held k =
        if k = .fields then some (.fields (.list (", ".intercalate fields))) else q.held k) ∧
    ∀ (q : Query) (resolved resolved' : List (RegistryCall ι)) (calls : List (QueryCall ι)),
      let s : QuerySession ι := ⟨q, Registry.empty.after t resolved⟩
      let s' : QuerySession ι := ⟨q, Registry.empty.after t resolved'⟩
      ((s.trace t ((s.unfailing t calls).map Prod.fst)).map QuerySession.shown =
          (s.unfailing t calls).map (fun step => QuerySession.shown step.2) ∧
        (s.run t ((s.unfailing t calls).map Prod.fst)).query = (s.run t calls).query) ∧
      ∀ calls', List.Forall₂ (QueryCall.SameUpToRegistry t) calls calls' →
        (s.trace t calls).map QuerySession.shown = (s'.trace t calls').map QuerySession.shown ∧
        (s.run t calls).query = (s'.run t calls').query := by
  refine ⟨fun q r i => ?_, Query.held_selectFields, fun q resolved resolved' calls => ?_⟩
  · rw [q.selectShape_fst]
    cases (r.paths t i).1 <;> simp [Except.map, eq_comm]
  · have hs := Registry.sound_after t resolved
    have hs' := Registry.sound_after t resolved'
    refine ⟨QuerySession.shown_trace_unfailing hs calls, fun calls' h => ?_⟩
    exact QuerySession.shown_trace_congr hs hs' rfl h

/-- The shapes of a draft, of its cover and of a genre. -/
inductive DraftShape
  | draft
  | cover
  | genre
  deriving DecidableEq

/-- A draft fails through its cover, and a genre has a field list. -/
def draftTable : ShapeTable DraftShape where
  shape
    | .draft => ⟨"Draft", [⟨"id", .scalar⟩, ⟨"cover", .nested .cover⟩]⟩
    | .cover => ⟨"Cover", []⟩
    | .genre => ⟨"Genre", [⟨"name", .scalar⟩]⟩
  ids := [.draft, .cover, .genre]
  mem_ids i := by
    cases i <;> simp

/-- A selection that fails is left out, and others go through registries of their own. -/
theorem shape_selection_transparent_draftTable :
    let s : QuerySession DraftShape := ⟨.empty, Registry.empty.after draftTable []⟩
    let s' : QuerySession DraftShape := ⟨.empty, Registry.empty.after draftTable [.paths .draft]⟩
    let calls : List (QueryCall DraftShape) := [.selectShape .draft, .limit 5, .selectShape .genre]
    let calls' : List (QueryCall DraftShape) :=
      [ .selectShapeWith (Registry.empty.after draftTable [.resolve .genre]) .draft, .limit 5,
        .selectShape .genre ]
    (s.unfailing draftTable calls).map Prod.fst = [.limit 5, .selectShape .genre] ∧
    (s.run draftTable [.limit 5, .selectShape .genre]).query = (s.run draftTable calls).query ∧
    List.Forall₂ (QueryCall.SameUpToRegistry draftTable) calls calls' ∧
    (s.run draftTable calls).query = (s'.run draftTable calls').query := by
  intro s s' calls calls'
  have hkept : (s.unfailing draftTable calls).map Prod.fst = [.limit 5, .selectShape .genre] := by
    cbv
  have halike : List.Forall₂ (QueryCall.SameUpToRegistry draftTable) calls calls' :=
    .cons (.selects .shared (.own [.resolve DraftShape.genre]))
      (.cons (.same _) (.cons (.same _) .nil))
  obtain ⟨_, _, hruns⟩ := shape_selection_transparent draftTable
  obtain ⟨⟨_, hrun⟩, hcongr⟩ := hruns .empty [] [.paths .draft] calls
  refine ⟨hkept, ?_, halike, (hcongr calls' halike).2⟩
  rw [← hkept]
  exact hrun

end ShapeQuery
