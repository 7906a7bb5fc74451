import ShapeQuery.Proofs.PathsOutcome
import ShapeQuery.Proofs.Positions
import ShapeQuery.Proofs.WriteOnce

/-!
# What a walk resolves

A walk resolves each shape that it enters, and keeps it in the registry also when it
fails later on.  So what it leaves there tells how far it came.

**Walks that come back.**  All positions below the root have been entered, and the
registry has gained the root and every shape that it reaches.

**Walks that fail.**  They stop at the first position in the order of positions at
which a shape stands below itself or does not pass its check.  The registry has gained
the shapes at the positions before that one, and no others.

The graph may have cycles, so the recursion on nesting is of no use here; the positions
below a shape are there in any case, and the induction is on the walk.
-/

namespace ShapeQuery

namespace Registry

variable {ι : Type} [DecidableEq ι]

theorem contains_insert
    (r : Registry ι) (i : ι) (c : CheckedShape ι) (j : ι) :
    (r.insert i c).contains j = true ↔ j = i ∨ r.contains j = true := by
  rw [← mem_identities_iff, ← mem_identities_iff, identities_insert, List.mem_cons]

/-- Resolving a shape adds this shape if it passes its check, and nothing else. -/
theorem contains_resolve
    (t : ShapeTable ι) (r : Registry ι) (i j : ι) :
    (r.resolve t i).2.contains j = true ↔
      r.contains j = true ∨ j = i ∧ t.Passes i := by
  unfold resolve
  split
  next c hc =>
    have hkept : r.contains i = true := by
      simp [contains, hc]
    constructor
    · exact .inl
    · rintro (hj | ⟨rfl, _⟩)
      · exact hj
      · exact hkept
  next =>
    split
    next e he =>
      simp [ShapeTable.Passes, he]
    next c hc =>
      have hpass : t.Passes i := ⟨c, hc⟩
      simp only [contains_insert, hpass, and_true, or_comm]

end Registry

namespace ShapeTable

variable {ι : Type}

/-- The error with which a shape is refused inside of other shapes. -/
def Refused (t : ShapeTable ι) (lineage : List ι) (i : ι) (e : ShapeError) : Prop :=
  i ∈ lineage ∧ e = .recursiveShape ((lineage ++ [i]).map fun j => (t.shape j).name) ∨
  i ∉ lineage ∧ t.check i = .error e

end ShapeTable

/--
From one registry to another, the shapes at some of the positions have been entered,
inside of a lineage: they are off their lineage and pass their checks, and the second
registry has gained them and no others.
-/
structure Registry.Gains {ι : Type} [DecidableEq ι] (t : ShapeTable ι) (lineage : List ι)
    (leads : List Nat → List ι → ι → Prop) (entered : List Nat → Prop) (r r' : Registry ι) :
    Prop where
  fit : ∀ place above i, leads place above i → entered place →
    i ∉ lineage ++ above ∧ t.Passes i
  contains_iff : ∀ i, r'.contains i = true ↔
    r.contains i = true ∨ ∃ place above, leads place above i ∧ entered place

section Gains

variable {ι : Type} [DecidableEq ι] {t : ShapeTable ι} {lineage : List ι}
variable {leads : List Nat → List ι → ι → Prop} {entered first later : List Nat → Prop}
variable {r r₁ r₂ : Registry ι} {i child : ι} {name : String}
variable {d : DeclaredField ι} {ds : List (DeclaredField ι)}

namespace Registry.Gains

/-- Where no position is entered, the registry is the same. -/
theorem of_none
    (h : ∀ place above i, leads place above i → ¬ entered place) :
    Gains t lineage leads entered r r where
  fit place above i hleads hentered := absurd hentered (h place above i hleads)
  contains_iff i := by
    constructor
    · exact .inl
    · rintro (hi | ⟨place, above, hleads, hentered⟩)
      · exact hi
      · exact absurd hentered (h place above i hleads)

/-- A shape is entered before the positions at its fields. -/
theorem of_fields
    (h : Gains t (lineage ++ [i]) (t.LeadsIn (t.shape i).fields) entered (r.resolve t i).2 r₂)
    (hi : i ∉ lineage) (hpass : t.Passes i) (hnil : entered []) :
    Gains t lineage (t.Leads i) entered r r₂ where
  fit place above j hleads hentered := by
    cases place with
    | nil =>
        obtain ⟨rfl, rfl⟩ := ShapeTable.leads_nil_iff.mp hleads
        exact ⟨by simpa using hi, hpass⟩
    | cons n place =>
        obtain ⟨inner, rfl, hfields⟩ := ShapeTable.leads_cons_iff.mp hleads
        have hfit := h.fit _ inner j hfields hentered
        rwa [List.append_assoc] at hfit
  contains_iff j := by
    rw [h.contains_iff, contains_resolve, ShapeTable.exists_leads_and_iff, or_assoc]
    simp only [hpass, hnil, and_true]

/-- A field that is not nested has no positions. -/
theorem of_leaf
    (hleaf : ∀ child, d.content ≠ .nested child)
    (h : Gains t lineage (t.LeadsIn ds) later r r₁)
    (hlater : ∀ n place, entered ((n + 1) :: place) ↔ later (n :: place)) :
    Gains t lineage (t.LeadsIn (d :: ds)) entered r r₁ where
  fit place above j hleads hentered := by
    cases hleads with
    | @field _ _ n _ place _ hfield hchild =>
        cases n with
        | zero =>
            exact absurd (.field hfield hchild) (ShapeTable.not_leadsIn_zero hleaf)
        | succ n =>
            exact h.fit _ above j (.field hfield hchild) ((hlater n place).mp hentered)
  contains_iff j := by
    have hnone : ¬ ∃ place above,
        t.LeadsIn (d :: ds) (0 :: place) above j ∧ entered (0 :: place) := by
      rintro ⟨place, above, hleads, _⟩
      exact ShapeTable.not_leadsIn_zero hleaf hleads
    rw [h.contains_iff, ShapeTable.exists_leadsIn_cons_iff hlater, or_iff_right hnone]

/-- The positions at a nested field are entered before those at the fields after it. -/
theorem of_nested
    (hchild : Gains t lineage (t.Leads child) first r r₁)
    (hrest : Gains t lineage (t.LeadsIn ds) later r₁ r₂)
    (hfirst : ∀ place, entered (0 :: place) ↔ first place)
    (hlater : ∀ n place, entered ((n + 1) :: place) ↔ later (n :: place)) :
    Gains t lineage (t.LeadsIn (⟨name, .nested child⟩ :: ds)) entered r r₂ where
  fit place above j hleads hentered := by
    cases hleads with
    | @field _ _ n _ place _ hfield hin =>
        cases n with
        | zero =>
            have hleads := ShapeTable.leadsIn_zero_iff.mp (.field hfield hin)
            exact hchild.fit place above j hleads ((hfirst place).mp hentered)
        | succ n =>
            exact hrest.fit _ above j (.field hfield hin) ((hlater n place).mp hentered)
  contains_iff j := by
    rw [hrest.contains_iff, hchild.contains_iff, ShapeTable.exists_leadsIn_cons_iff hlater,
      or_assoc]
    simp only [ShapeTable.leadsIn_zero_iff, hfirst]

end Registry.Gains
end Gains

namespace Walk

section Footprint

variable {ι : Type} [DecidableEq ι] {t : ShapeTable ι}

/--
What a walk from `w` leaves behind that was to enter the shapes at some positions: it
has entered all of them if it comes back, and otherwise those before the first one at
which a shape is refused.
-/
def Outcome.Footprint {w : Walk ι} (t : ShapeTable ι) (leads : List Nat → List ι → ι → Prop) :
    Outcome w → Prop
  | .back home _ =>
      Registry.Gains t w.lineage leads (fun _ => True) w.registry home.registry
  | .failed e stopped =>
      ∃ stop above i,
        leads stop above i ∧
        t.Refused (w.lineage ++ above) i e ∧
        Registry.Gains t w.lineage leads (· < stop) w.registry stopped.registry

section Steps

variable {w : Walk ι} {i child : ι} {name : String} {e : ShapeError}
variable {rest : List (CheckedField ι)}

/-- At a shape that is refused, a walk stops before any position. -/
theorem footprint_of_refused
    (h : t.Refused w.lineage i e) :
    (Outcome.failed e w : Outcome w).Footprint t (t.Leads i) := by
  refine ⟨[], [], i, .here i, by simpa using h, .of_none fun place _ _ _ hlt => ?_⟩
  exact List.not_lt_nil place hlt

/-- A walk of a fit shape stops where the walk of its fields stops. -/
theorem footprint_visit_of_ok
    {c : CheckedShape ι}
    (hr : w.registry.Sound t) (hi : i ∉ w.lineage) (hc : t.check i = .ok c)
    (hown : ((w.inside t i).fields t c.fields).Footprint t (t.LeadsIn (t.shape i).fields)) :
    (w.visit t i).Footprint t (t.Leads i) := by
  have hpass : t.Passes i := ⟨c, hc⟩
  cases hfields : (w.inside t i).fields t c.fields with
  | back inner hinner =>
      have henter := (enter_eq_ok hr).mpr ⟨hi, rfl, c, hc, rfl⟩
      rw [visit_eq_back.mpr ⟨_, _, inner, hinner, henter, hfields, rfl⟩]
      · rw [hfields] at hown
        exact Registry.Gains.of_fields hown hi hpass trivial
      · exact lineage_leave henter hinner
  | failed e stopped =>
      rw [(visit_eq_failed_of_sound hr).mpr (.inr (.inr ⟨hi, c, hc, hfields⟩))]
      rw [hfields] at hown
      obtain ⟨_, above, j, hleads, hrefused, hgains⟩ := hown
      cases hleads with
      | field hfield hchild =>
          refine ⟨_, i :: above, j, .down hfield hchild, ?_, ?_⟩
          · rwa [inside, List.append_assoc] at hrefused
          · exact hgains.of_fields hi hpass (List.nil_lt_cons _ _)

/-- A leaf field has no positions, so a walk stops where the walk of the rest stops. -/
theorem footprint_leaf
    {f : CheckedField ι}
    (hleaf : f.kind.isLeaf = true)
    (hrest : ((w.leaf f.name).fields t rest).Footprint t
      (t.LeadsIn (rest.map CheckedField.declared))) :
    (w.fields t (f :: rest)).Footprint t
      (t.LeadsIn ((f :: rest).map CheckedField.declared)) := by
  have hcontent : ∀ child, f.declared.content ≠ .nested child := by
    rcases f with ⟨name, kind⟩
    cases kind <;> simp_all [CheckedField.declared, FieldKind.isLeaf]
  rw [fields_leaf t w rest hleaf, List.map_cons]
  cases hfields : (w.leaf f.name).fields t rest with
  | back home hhome =>
      rw [hfields] at hrest
      exact hrest.of_leaf hcontent fun _ _ => Iff.rfl
  | failed e stopped =>
      rw [hfields] at hrest
      obtain ⟨_, above, j, hleads, hrefused, hgains⟩ := hrest
      cases hleads with
      | field hfield hchild =>
          refine ⟨(_ + 1) :: _, above, j, .field hfield hchild, hrefused, ?_⟩
          exact hgains.of_leaf hcontent fun _ _ => by simp [List.cons_lt_cons_iff]

/-- A walk stops in a nested field where the walk of its shape stops. -/
theorem footprint_nested_of_failed
    {stopped : Walk ι}
    (hvisit : (w.descend name).visit t child = .failed e stopped)
    (hchild : ((w.descend name).visit t child).Footprint t (t.Leads child)) :
    (w.fields t (⟨name, .nested child⟩ :: rest)).Footprint t
      (t.LeadsIn (⟨name, .nested child⟩ :: rest.map CheckedField.declared)) := by
  rw [hvisit] at hchild
  rw [fields_nested_eq_failed.mpr (.inl hvisit)]
  obtain ⟨stop, above, j, hleads, hrefused, hgains⟩ := hchild
  have hlater : Registry.Gains t w.lineage (t.LeadsIn (rest.map CheckedField.declared))
      (fun _ => False) stopped.registry stopped.registry :=
    .of_none fun _ _ _ _ => id
  refine ⟨0 :: stop, above, j, .field rfl hleads, hrefused, hgains.of_nested hlater ?_ ?_⟩
  · intro place
    simp
  · intro n place
    simp [List.cons_lt_cons_iff]

/-- Back from a nested field, a walk stops where the walk of the fields after it stops. -/
theorem footprint_nested_of_back
    {mid : Walk ι} {hmid : mid.lineage = (w.descend name).lineage}
    (hvisit : (w.descend name).visit t child = .back mid hmid)
    (hchild : ((w.descend name).visit t child).Footprint t (t.Leads child))
    (hrest : ((mid.cutBack w.place.length).fields t rest).Footprint t
      (t.LeadsIn (rest.map CheckedField.declared))) :
    (w.fields t (⟨name, .nested child⟩ :: rest)).Footprint t
      (t.LeadsIn (⟨name, .nested child⟩ :: rest.map CheckedField.declared)) := by
  rw [hvisit] at hchild
  cases hfields : (mid.cutBack w.place.length).fields t rest with
  | back home hhome =>
      rw [fields_nested_eq_back.mpr ⟨mid, hmid, hvisit, hfields⟩]
      · rw [hfields] at hrest
        have hgains : Registry.Gains t mid.lineage _ _ mid.registry home.registry := hrest
        rw [hmid] at hgains
        exact hchild.of_nested hgains (fun _ => Iff.rfl) fun _ _ => Iff.rfl
      · exact hhome.trans (lineage_cutBack hmid)
  | failed e stopped =>
      rw [fields_nested_eq_failed.mpr (.inr ⟨mid, hmid, hvisit, hfields⟩)]
      rw [hfields] at hrest
      obtain ⟨_, above, j, hleads, hrefused, hgains⟩ := hrest
      rw [lineage_cutBack hmid] at hrefused hgains
      cases hleads with
      | field hfield hin =>
          refine ⟨(_ + 1) :: _, above, j, .field hfield hin, hrefused, ?_⟩
          refine hchild.of_nested hgains ?_ ?_
          · intro place
            simp [List.cons_lt_cons_iff]
          · intro n place
            simp [List.cons_lt_cons_iff]

end Steps

/-- Every walk over a sound registry leaves its footprint. -/
theorem footprint
    (t : ShapeTable ι) :
    (∀ (w : Walk ι) i, w.registry.Sound t → (w.visit t i).Footprint t (t.Leads i)) ∧
    (∀ (w : Walk ι) own, w.registry.Sound t →
      (w.fields t own).Footprint t (t.LeadsIn (own.map CheckedField.declared))) := by
  apply sound_walk_induction t
  case visit =>
    intro w i hr ih
    by_cases hi : i ∈ w.lineage
    · rw [(visit_eq_failed_of_sound hr).mpr (.inl ⟨hi, rfl, rfl⟩)]
      exact footprint_of_refused (.inl ⟨hi, rfl⟩)
    · cases hc : t.check i with
      | error e =>
          rw [(visit_eq_failed_of_sound hr).mpr (.inr (.inl ⟨hi, rfl, hc⟩))]
          exact footprint_of_refused (.inr ⟨hi, hc⟩)
      | ok c =>
          have hown := ih c hi hc
          rw [t.declared_of_check hc] at hown
          exact footprint_visit_of_ok hr hi hc hown
  case nil =>
    intro w hr
    rw [fields_nil]
    exact .of_none fun _ _ _ hleads => absurd hleads ShapeTable.not_leadsIn_nil
  case leaf =>
    intro w f rest hr hleaf ih
    exact footprint_leaf hleaf ih
  case nested =>
    intro w name child rest hr ihvisit ihrest
    cases hvisit : (w.descend name).visit t child with
    | failed e stopped =>
        exact footprint_nested_of_failed hvisit ihvisit
    | back mid hmid =>
        exact footprint_nested_of_back hvisit ihvisit (ihrest mid hmid hvisit)

end Footprint
end Walk

section Paths

variable {ι : Type} [DecidableEq ι] {t : ShapeTable ι} {r : Registry ι} {root : ι}

namespace Registry

/-- A shape that has field paths is resolved with all shapes that it reaches. -/
theorem contains_paths_of_ok
    {ps : List String}
    (hr : r.Sound t) (h : (r.paths t root).1 = .ok ps) (i : ι) :
    (r.paths t root).2.contains i = true ↔ r.contains i = true ∨ t.Reaches root i := by
  obtain ⟨home, hhome, hback, _⟩ := paths_eq_ok.mp h
  have hgains := (Walk.footprint t).1 (Walk.start r) root hr
  rw [hback] at hgains
  rw [paths_of_back hback, ← ShapeTable.exists_leads_iff]
  simpa [Walk.start] using hgains.contains_iff i

/-- Finding the paths of a shape fails at the first position at which a shape is refused. -/
theorem exists_stop_of_error
    {e : ShapeError}
    (hr : r.Sound t) (h : (r.paths t root).1 = .error e) :
    ∃ stop above i,
      t.Leads root stop above i ∧
      t.Refused above i e ∧
      Gains t [] (t.Leads root) (· < stop) r (r.paths t root).2 := by
  obtain ⟨stopped, hfailed⟩ := paths_eq_error.mp h
  have hstop := (Walk.footprint t).1 (Walk.start r) root hr
  rw [hfailed] at hstop
  rw [paths_of_failed hfailed]
  exact hstop

end Registry

/--
A walk over a registry that any calls have left behind, be it for the field paths or
for the field list of a shape.  If it succeeds, the registry has gained the shape and
all shapes that it reaches.  If it fails, it has stopped at the first position at which
a shape stands below itself or does not pass its check, and the registry has gained the
shapes at the positions before that one and no others.  So the shapes above that
position are resolved, and a shape that does not pass its check is not.  Resolving a
shape adds at most this shape.
-/
theorem registry_after_walk
    (t : ShapeTable ι) (calls : List (RegistryCall ι)) (root : ι) :
    let r := Registry.empty.after t calls
    let left := (r.paths t root).2
    ((r.fieldList t root).2 = left ∧
      ∀ e, (r.fieldList t root).1 = .error e ↔ (r.paths t root).1 = .error e) ∧
    (∀ ps, (r.paths t root).1 = .ok ps →
      ∀ i, left.contains i = true ↔ r.contains i = true ∨ t.Reaches root i) ∧
    (∀ e, (r.paths t root).1 = .error e →
      ∃ stop above j,
        t.Leads root stop above j ∧
        t.Refused above j e ∧
        (∀ place inner i,
          t.Leads root place inner i → place < stop → i ∉ inner ∧ t.Passes i) ∧
        (∀ i, left.contains i = true ↔
          r.contains i = true ∨ ∃ place inner, t.Leads root place inner i ∧ place < stop) ∧
        (∀ i ∈ above, left.contains i = true) ∧
        (t.check j = .error e → left.contains j = false)) ∧
    ∀ i j, (r.resolve t i).2.contains j = true ↔ r.contains j = true ∨ j = i ∧ t.Passes i := by
  intro r left
  have hr : r.Sound t := Registry.sound_after t calls
  have hleft : left.Sound t := Registry.sound_answer hr (.paths root)
  refine ⟨⟨?_, (Registry.fieldList_fst_cases t r root).2⟩, fun ps h => ?_, fun e h => ?_,
    fun i j => ?_⟩
  · rw [Registry.fieldList_eq]
  · exact Registry.contains_paths_of_ok hr h
  · obtain ⟨stop, above, j, hleads, hrefused, hgains⟩ := Registry.exists_stop_of_error hr h
    refine ⟨stop, above, j, hleads, hrefused, hgains.fit, hgains.contains_iff,
      fun i hi => ?_, fun he => ?_⟩
    · obtain ⟨earlier, passed, hearlier, hlt⟩ := hleads.exists_lt_of_mem hi
      exact (hgains.contains_iff i).mpr (.inr ⟨earlier, passed, hearlier, hlt⟩)
    · exact hleft.contains_eq_false he
  · exact Registry.contains_resolve t r i j

/-- A shape with a fit, an unfit and again a fit shape in its fields. -/
def stallTable : ShapeTable (Fin 4) where
  shape
    | 0 => ⟨"Game", [⟨"cover", .nested 1⟩, ⟨"genre", .nested 2⟩, ⟨"logo", .nested 3⟩]⟩
    | 1 => ⟨"Cover", [⟨"url", .scalar⟩]⟩
    | 2 => ⟨"Genre", []⟩
    | 3 => ⟨"Logo", [⟨"url", .scalar⟩]⟩
  ids := List.finRange 4
  mem_ids := List.mem_finRange

/-- The walk stops at the unfit shape, and the one after it has not been resolved. -/
theorem registry_after_walk_stallTable :
    let r := Registry.empty.after stallTable []
    let left := (r.paths stallTable 0).2
    left.resolved stallTable = [0, 1] ∧
    ∃ stop above j,
      stallTable.Leads 0 stop above j ∧
      stallTable.Refused above j (.missingDeclarations "Genre") ∧
      ∀ i ∈ above, left.contains i = true := by
  have hwalk : ((Registry.empty.after stallTable []).paths stallTable 0).map id
      (Registry.resolved stallTable) = (.error (.missingDeclarations "Genre"), [0, 1]) := by
    cbv
  obtain ⟨herror, hresolved⟩ := Prod.mk.inj hwalk
  obtain ⟨_, _, hfailed, _⟩ := registry_after_walk stallTable [] 0
  obtain ⟨stop, above, j, hleads, hrefused, _, _, habove, _⟩ := hfailed _ herror
  exact ⟨hresolved, stop, above, j, hleads, hrefused, habove⟩

end Paths
end ShapeQuery
