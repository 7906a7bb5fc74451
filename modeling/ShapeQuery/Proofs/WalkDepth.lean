import ShapeQuery.Proofs.RecursionChain
import ShapeQuery.Proofs.WalkEntries

/-!
# The depth of a walk

The walk of a shape goes down into nested shapes, and the nesting may have cycles.  Here
the same recursion is run with a bound on its depth instead of a measure: it gives up as
soon as more walks are inside of one another than the bound allows (`visitWithin`).

**Agreement.**  Where the bounded recursion does not give up, it ends as the walk does
(`agrees_visitWithin`).

**Bound.**  It gives up iff some walk is entered deeper than the bound
(`pathsWithin_eq_none_iff`).  No walk is entered deeper than by one more than the number
of shapes that the root reaches, so this depth is enough, on cyclic tables too
(`walk_returns_within_reach`).
-/

namespace ShapeQuery

namespace Walk

section Endings

variable {ι : Type} {w stopped home : Walk ι} {e : ShapeError}

/-- How a walk ends, and where it then stands. -/
def Outcome.ending : Outcome w → Except ShapeError Unit × Walk ι
  | .failed e stopped => (.error e, stopped)
  | .back home _ => (.ok (), home)

theorem Outcome.ending_eq_error
    {o : Outcome w} (h : o.ending = (.error e, stopped)) :
    o = .failed e stopped := by
  cases o with
  | failed e' stopped' =>
      obtain ⟨he, rfl⟩ := Prod.mk.inj h
      rw [Except.error.inj he]
  | back home _ =>
      cases (Prod.mk.inj h).1

theorem Outcome.ending_eq_ok
    {o : Outcome w} (h : o.ending = (.ok (), home)) :
    ∃ hhome, o = .back home hhome := by
  cases o with
  | failed e stopped =>
      cases (Prod.mk.inj h).1
  | back home' hhome =>
      obtain ⟨_, rfl⟩ := Prod.mk.inj h
      exact ⟨hhome, rfl⟩

/-- Walks fields, the shapes nested in them by `below`, which may give up. -/
def fieldsBy (below : Walk ι → ι → Option (Except ShapeError Unit × Walk ι)) :
    Walk ι → List (CheckedField ι) → Option (Except ShapeError Unit × Walk ι)
  | w, [] => some (.ok (), w)
  | w, ⟨name, .scalar⟩ :: rest => fieldsBy below (w.leaf name) rest
  | w, ⟨name, .scalarCollection⟩ :: rest => fieldsBy below (w.leaf name) rest
  | w, ⟨name, .nested child⟩ :: rest =>
    match below (w.descend name) child with
    | none => none
    | some (.error e, stopped) => some (.error e, stopped)
    | some (.ok (), home) => fieldsBy below (home.cutBack w.place.length) rest

theorem fieldsBy_leaf
    (below : Walk ι → ι → Option (Except ShapeError Unit × Walk ι)) (w : Walk ι)
    {f : CheckedField ι} (rest : List (CheckedField ι))
    (hleaf : f.kind.isLeaf = true) :
    fieldsBy below w (f :: rest) = fieldsBy below (w.leaf f.name) rest := by
  rcases f with ⟨name, kind⟩
  cases kind with
  | scalar | scalarCollection =>
      rw [fieldsBy]
  | nested child =>
      cases hleaf

end Endings

section Agreement

variable {ι : Type} [DecidableEq ι] {t : ShapeTable ι} {w now : Walk ι}
variable {i child : ι} {own rest : List (CheckedField ι)} {name : String}
variable {below : Walk ι → ι → Option (Except ShapeError Unit × Walk ι)}
variable {ending : Except ShapeError Unit × Walk ι}

/-- Walks a shape with at most so many walks inside of one another, or gives up. -/
def visitWithin (t : ShapeTable ι) :
    Nat → Walk ι → ι → Option (Except ShapeError Unit × Walk ι)
  | 0, _, _ => none
  | depth + 1, w, i =>
    match w.enter t i with
    | (.error e, stopped) => some (.error e, stopped)
    | (.ok own, inside) =>
      match fieldsBy (visitWithin t depth) inside own with
      | none => none
      | some (.error e, stopped) => some (.error e, stopped)
      | some (.ok (), inner) => some (.ok (), inner.leave)

/-- `below` walks shapes as they are walked, as far as it does not give up. -/
def Agrees (t : ShapeTable ι) (below : Walk ι → ι → Option (Except ShapeError Unit × Walk ι)) :
    Prop :=
  ∀ w i ending, below w i = some ending → (w.visit t i).ending = ending

/-- If nested shapes are walked as they should be, so are fields. -/
theorem Agrees.fields
    (hbelow : Agrees t below) (h : fieldsBy below w own = some ending) :
    (w.fields t own).ending = ending := by
  induction own generalizing w with
  | nil =>
      rw [fieldsBy, Option.some.injEq] at h
      rw [fields_nil, ← h]
      rfl
  | cons f rest ih =>
      rcases f with ⟨name, kind⟩
      cases kind with
      | scalar | scalarCollection =>
          rw [fieldsBy] at h
          rw [fields_leaf t w rest rfl, ← ih h]
          cases (w.leaf name).fields t rest <;> rfl
      | nested child =>
          rw [fieldsBy] at h
          split at h
          next => cases h
          next e stopped hchild =>
            have hvisit := Outcome.ending_eq_error (hbelow _ _ _ hchild)
            rw [fields_nested_eq_failed.mpr (.inl hvisit), ← Option.some.inj h]
            rfl
          next mid hchild =>
            obtain ⟨hmid, hvisit⟩ := Outcome.ending_eq_ok (hbelow _ _ _ hchild)
            rw [← ih h]
            cases hrest : (mid.cutBack w.place.length).fields t rest with
            | failed e stopped =>
                rw [fields_nested_eq_failed.mpr (.inr ⟨mid, hmid, hvisit, hrest⟩)]
                rfl
            | back home hhome =>
                rw [fields_nested_eq_back.mpr ⟨mid, hmid, hvisit, hrest⟩]
                · rfl
                · exact hhome.trans (lineage_cutBack hmid)

/-- Within any depth, a shape is walked as it is without a bound, or given up. -/
theorem agrees_visitWithin
    (t : ShapeTable ι) (depth : Nat) :
    Agrees t (visitWithin t depth) := by
  induction depth with
  | zero =>
      intro w i ending h
      cases h
  | succ depth ih =>
      intro w i ending h
      rw [visitWithin] at h
      split at h
      next e stopped henter =>
        rw [visit_eq_failed.mpr (.inl henter), ← Option.some.inj h]
        rfl
      next own inside henter =>
        split at h
        next => cases h
        next e stopped hown =>
          have hfields := Outcome.ending_eq_error (ih.fields hown)
          rw [visit_eq_failed.mpr (.inr ⟨own, inside, henter, hfields⟩), ← Option.some.inj h]
          rfl
        next inner hown =>
          obtain ⟨hinner, hfields⟩ := Outcome.ending_eq_ok (ih.fields hown)
          rw [visit_eq_back.mpr ⟨own, inside, inner, hinner, henter, hfields, rfl⟩,
            ← Option.some.inj h]
          · rfl
          · exact lineage_leave henter hinner

/-- Fields are given up at a nested one, the walk of whose shape is given up. -/
theorem exists_goesOn_of_fieldsBy_eq_none
    (hbelow : Agrees t below) (h : fieldsBy below w own = none) :
    ∃ now name child rest,
      GoesOn t w own now (⟨name, .nested child⟩ :: rest) ∧
      below (now.descend name) child = none := by
  induction own generalizing w with
  | nil =>
      cases h
  | cons f rest ih =>
      rcases f with ⟨name, kind⟩
      cases kind with
      | scalar | scalarCollection =>
          rw [fieldsBy] at h
          obtain ⟨now, name', child, todo, hgoes, hgiven⟩ := ih h
          exact ⟨now, name', child, todo, .leaf rfl hgoes, hgiven⟩
      | nested child =>
          rw [fieldsBy] at h
          split at h
          next hchild =>
            exact ⟨w, name, child, rest, .here _ _, hchild⟩
          next => cases h
          next mid hchild =>
            obtain ⟨hmid, hvisit⟩ := Outcome.ending_eq_ok (hbelow _ _ _ hchild)
            obtain ⟨now, name', child', todo, hgoes, hgiven⟩ := ih h
            exact ⟨now, name', child', todo, .nested hvisit hgoes, hgiven⟩

/-- Fields are given up if the walk of a shape is that is nested in one of them. -/
theorem GoesOn.fieldsBy_eq_none
    (hbelow : Agrees t below)
    (hgoes : GoesOn t w own now (⟨name, .nested child⟩ :: rest))
    (h : below (now.descend name) child = none) :
    fieldsBy below w own = none := by
  generalize htodo : (⟨name, .nested child⟩ :: rest : List (CheckedField ι)) = todo at hgoes
  induction hgoes with
  | here w own =>
      subst htodo
      rw [fieldsBy, h]
  | leaf hleaf _ ih =>
      rw [fieldsBy_leaf below _ _ hleaf]
      exact ih h htodo
  | @nested w mid now name' child' rest' todo hmid hvisit _ ih =>
      rw [fieldsBy]
      cases hchild : below (w.descend name') child' with
      | none =>
          rfl
      | some ending =>
          have hending := hbelow _ _ _ hchild
          rw [hvisit] at hending
          subst hending
          exact ih h htodo

end Agreement

section Depth

variable {ι : Type} [DecidableEq ι] {t : ShapeTable ι} {r : Registry ι} {root i : ι}
variable {w : Walk ι} {depth more : Nat}

/-- Where an entry is given up with some depth left, there are entries deeper than that. -/
theorem Entered.exists_of_visitWithin_eq_none
    (hentered : Entered t r root depth w i) (h : visitWithin t more w i = none) :
    ∃ w' i', Entered t r root (depth + more) w' i' := by
  induction more generalizing depth w i with
  | zero =>
      exact ⟨w, i, hentered⟩
  | succ more ih =>
      rw [visitWithin] at h
      split at h
      next => cases h
      next own inside henter =>
        split at h
        next hown =>
          obtain ⟨now, name, child, rest, hgoes, hchild⟩ :=
            exists_goesOn_of_fieldsBy_eq_none (agrees_visitWithin t more) hown
          obtain ⟨w', i', hdeeper⟩ := ih (.nested hentered henter hgoes) hchild
          refine ⟨w', i', ?_⟩
          rwa [Nat.add_assoc, Nat.add_comm 1 more] at hdeeper
        next => cases h
        next => cases h

/-- Where an entry is given up with some depth left, the root is given up with all the depth. -/
theorem Entered.visitWithin_start_eq_none
    {total : Nat}
    (hentered : Entered t r root depth w i) (htotal : total + 1 = more + depth)
    (h : visitWithin t more w i = none) :
    visitWithin t total (start r) root = none := by
  induction hentered generalizing more with
  | root =>
      obtain rfl : total = more := by omega
      exact h
  | @nested depth w inside now i child name own rest _ henter hgoes ih =>
      have hown := hgoes.fieldsBy_eq_none (agrees_visitWithin t more) h
      have hvisit : visitWithin t (more + 1) w i = none := by
        rw [visitWithin, henter]
        simp [hown]
      exact ih (by omega) hvisit

end Depth
end Walk

section Paths

variable {ι : Type} [DecidableEq ι] {t : ShapeTable ι} {r : Registry ι} {root : ι}
variable {depth : Nat}

namespace Registry

/-- The field paths of a shape, found with at most so many walks inside of one another. -/
def pathsWithin (t : ShapeTable ι) (r : Registry ι) (root : ι) (depth : Nat) :
    Option (Except ShapeError (List String) × Registry ι) :=
  match Walk.visitWithin t depth (Walk.start r) root with
  | none => none
  | some (.error e, stopped) => some (.error e, stopped.registry)
  | some (.ok (), home) => some (.ok home.paths, home.registry)

/-- Finding paths is given up iff some walk would be entered deeper than the bound. -/
theorem pathsWithin_eq_none_iff :
    r.pathsWithin t root depth = none ↔ ∃ w i, Walk.Entered t r root (depth + 1) w i := by
  have hvisit : r.pathsWithin t root depth = none ↔
      Walk.visitWithin t depth (Walk.start r) root = none := by
    unfold pathsWithin
    split
    next h => simp [h]
    next h => simp [h]
    next h => simp [h]
  rw [hvisit]
  constructor
  · intro h
    have hdeep := Walk.Entered.root.exists_of_visitWithin_eq_none h
    rwa [Nat.add_comm 1 depth] at hdeep
  · rintro ⟨w, i, hentered⟩
    exact hentered.visitWithin_start_eq_none (Nat.zero_add _).symm rfl

/-- What is found within a depth is what is found without a bound. -/
theorem paths_of_pathsWithin
    {found : Except ShapeError (List String) × Registry ι}
    (h : r.pathsWithin t root depth = some found) :
    r.paths t root = found := by
  have hagrees := Walk.agrees_visitWithin t depth (Walk.start r) root
  unfold pathsWithin at h
  split at h
  next => cases h
  next e stopped hvisit =>
    rw [paths_of_failed (Walk.Outcome.ending_eq_error (hagrees _ hvisit))]
    exact Option.some.inj h
  next home hvisit =>
    obtain ⟨hhome, hback⟩ := Walk.Outcome.ending_eq_ok (hagrees _ hvisit)
    rw [paths_of_back hback]
    exact Option.some.inj h

end Registry

/--
Whatever has been asked of a registry before, and whatever the nesting of shapes is:
at every entry of a walk, while the paths of a root are found, the lineage leads from the
root down to the shape by nested fields and without any shape twice, the place is made of
the names of these fields, each with a separator behind it, and the depth of walks inside
of one another is at most one more than the number of shapes that the root reaches.  A
walk that comes back from there is at the lineage and the place at which it was entered,
and has only added paths, each of which extends that place.

So the recursion ends.  Bounded to a depth it gives up only if some walk is entered deeper
than that, and with one more than the number of shapes reached it finds what is found
without a bound.
-/
theorem walk_returns_within_reach
    (t : ShapeTable ι) (calls : List (RegistryCall ι)) (root : ι) :
    let r := Registry.empty.after t calls
    let reached := {j | t.Reaches root j}.ncard
    (∀ depth w i, Walk.Entered t r root depth w i →
      w.lineage.Nodup ∧
      (∃ names,
        t.Descent root w.lineage names i ∧
        w.place = String.join (names.map (· ++ Token.pathSeparator))) ∧
      depth = w.lineage.length + 1 ∧
      depth ≤ reached + 1 ∧
      ∀ home hhome, w.visit t i = .back home hhome →
        home.lineage = w.lineage ∧
        home.place = w.place ∧
        ∃ ends : t.Ends i,
          home.paths = w.paths ++ (t.expansion i ends).map (w.place ++ ·)) ∧
    (∀ depth, r.pathsWithin t root depth = none ↔
      ∃ w i, Walk.Entered t r root (depth + 1) w i) ∧
    ∀ depth, reached < depth → r.pathsWithin t root depth = some (r.paths t root) := by
  intro r reached
  have hr : r.Sound t := Registry.sound_after t calls
  refine ⟨fun depth w i hentered => ?_, fun depth => Registry.pathsWithin_eq_none_iff,
    fun depth hdepth => ?_⟩
  · obtain ⟨hentry, hlevel⟩ := hentered.entry hr
    refine ⟨hentry.nodup, hentry.descent, hlevel, hentered.depth_le hr,
      fun home hhome hback => ?_⟩
    obtain ⟨ends, hplace, hpaths⟩ := Walk.exists_adds_expansion hentry.sound hback
    exact ⟨hhome, hplace, ends, hpaths⟩
  · cases hfound : r.pathsWithin t root depth with
    | none =>
        obtain ⟨w, i, hentered⟩ := Registry.pathsWithin_eq_none_iff.mp hfound
        have hle : depth + 1 ≤ reached + 1 := hentered.depth_le hr
        omega
    | some found =>
        rw [Registry.paths_of_pathsWithin hfound]

/-- Below a cycle of two shapes, a third walk is entered, and no depth less than three is enough. -/
theorem walk_returns_within_reach_pairTable :
    let t := pairTable "Ping"
    let r := Registry.empty.after t [.resolve .pong]
    (∃ w i, Walk.Entered t r .ping 3 w i ∧ w.lineage.length = 2) ∧
    {j | t.Reaches .ping j}.ncard = 2 ∧
    r.pathsWithin t .ping 2 = none ∧
    r.pathsWithin t .ping 3 = some (r.paths t .ping) := by
  intro t r
  obtain ⟨hentries, hgiven, hfound⟩ := walk_returns_within_reach t [.resolve .pong] .ping
  have hnone : r.pathsWithin t .ping 2 = none := by
    cbv
  obtain ⟨w, i, hentered⟩ := (hgiven 2).mp hnone
  obtain ⟨_, _, hlength, hdepth, _⟩ := hentries 3 w i hentered
  have hsubset : {j | t.Reaches .ping j} ⊆ {.ping, .pong} := by
    intro j _
    cases j <;> simp
  have hcard : {j | t.Reaches .ping j}.ncard ≤ 2 :=
    (Set.ncard_le_ncard hsubset (Set.toFinite _)).trans (Set.ncard_pair (by decide)).le
  refine ⟨⟨w, i, hentered, by omega⟩, by omega, hnone, hfound 3 ?_⟩
  exact Nat.lt_succ_of_le hcard

end Paths
end ShapeQuery
