import ShapeQuery.Proofs.ResolvedShapes

/-!
# The chain that a recursion error names

A shape is refused as recursive when a walk meets, inside of some shapes, one of these
shapes again.  The error holds the names from the root down to the shape that is repeated.

**Chain.**  Each shape of the chain is nested in the one before it.  All shapes but the
last one are different and pass their checks, and the last one is among them
(`LoopsBack`).

**Text.**  An arrow is written as soon as anything stands in front of it, so empty names
at the beginning leave no trace in the text, while all later ones do.  The text joins all
names iff the name of the root is not empty.
-/

namespace ShapeQuery

namespace ShapeTable

section Positions

variable {ι : Type} {t : ShapeTable ι} {i j : ι} {place : List Nat} {above : List ι}

theorem Leads.head?_eq
    (h : t.Leads i place above j) :
    (above ++ [j]).head? = some i := by
  cases h with
  | here =>
      rfl
  | down =>
      rfl

/-- On the way to a position, each shape is nested in the one that is passed before it. -/
theorem Leads.isChain
    (h : t.Leads i place above j) :
    (above ++ [j]).IsChain t.Nests := by
  induction h with
  | here i =>
      exact .singleton i
  | down hfield hchild ih =>
      rw [List.cons_append, List.isChain_cons]
      refine ⟨fun child hhead => ?_, ih⟩
      rw [hchild.head?_eq, Option.mem_some_iff] at hhead
      subst hhead
      exact ⟨_, List.mem_of_getElem? hfield, rfl⟩

/-- If no shape before a position stands below itself, none is passed twice on the way. -/
theorem Leads.nodup
    (h : t.Leads i place above j)
    (hfit : ∀ earlier passed k, t.Leads i earlier passed k → earlier < place → k ∉ passed) :
    above.Nodup := by
  induction h with
  | here i =>
      exact List.nodup_nil
  | @down i child _ n _ place _ hfield hchild ih =>
      have hbelow : ∀ earlier passed k, t.Leads child earlier passed k → earlier < place →
          k ∉ i :: passed := by
        intro earlier passed k hk hlt
        have hlonger : n :: earlier < n :: place := List.cons_lt_cons_iff.mpr (.inr ⟨rfl, hlt⟩)
        exact hfit (n :: earlier) (i :: passed) k (.down hfield hk) hlonger
      refine List.nodup_cons.mpr ⟨fun hmem => ?_, ih fun earlier passed k hk hlt hmem => ?_⟩
      · obtain ⟨earlier, passed, hk, hlt⟩ := hchild.exists_lt_of_mem hmem
        exact hbelow earlier passed i hk hlt List.mem_cons_self
      · exact hbelow earlier passed k hk hlt (List.mem_cons_of_mem i hmem)

/-- From the root, different fit shapes are nested in one another, and then one of them again. -/
structure LoopsBack (t : ShapeTable ι) (root : ι) (lineage : List ι) (repeated : ι) : Prop where
  head?_eq : lineage.head? = some root
  isChain : (lineage ++ [repeated]).IsChain t.Nests
  nodup : lineage.Nodup
  passes : ∀ i ∈ lineage, t.Passes i
  mem : repeated ∈ lineage

end Positions

end ShapeTable

namespace ShapeError

variable {text name : String} {names : List String}

theorem foldl_appendName
    (h : text ≠ "") :
    names.foldl appendName text = " -> ".intercalate (text :: names) := by
  induction names generalizing text with
  | nil =>
      rw [List.foldl_nil, String.intercalate_singleton]
  | cons name rest ih =>
      have hlonger : text ++ " -> " ++ name ≠ "" := by
        simp [h]
      rw [List.foldl_cons, appendName, if_neg h, ih hlonger, String.intercalate_cons_cons]
      cases rest with
      | nil =>
          rw [String.intercalate_singleton, String.intercalate_singleton]
      | cons next rest =>
          rw [String.intercalate_cons_cons, String.intercalate_cons_cons]
          simp only [String.append_assoc]

/-- The text joins the names that are left without the empty ones at the beginning. -/
theorem chainText_eq_intercalate
    (names : List String) :
    chainText names = " -> ".intercalate (names.dropWhile (· = "")) := by
  induction names with
  | nil =>
      rfl
  | cons name rest ih =>
      by_cases h : name = ""
      · subst h
        rw [List.dropWhile_cons_of_pos (by simp), ← ih]
        rfl
      · rw [List.dropWhile_cons_of_neg (by simpa using h), ← foldl_appendName h]
        rfl

/-- Nothing but names and arrows is written, and no more of them than joining all names takes. -/
theorem length_chainText_le
    (names : List String) :
    (chainText names).length ≤ (" -> ".intercalate names).length := by
  rw [chainText_eq_intercalate]
  induction names with
  | nil =>
      exact Nat.le_refl _
  | cons name rest ih =>
      by_cases h : name = ""
      · rw [List.dropWhile_cons_of_pos (by simpa using h)]
        refine Nat.le_trans ih ?_
        cases rest with
        | nil =>
            simp
        | cons next rest =>
            rw [String.intercalate_cons_cons, String.length_append]
            omega
      · rw [List.dropWhile_cons_of_neg (by simpa using h)]

/-- Two or more names are all shown iff the first one is not empty. -/
theorem chainText_cons_eq_iff
    (h : names ≠ []) :
    chainText (name :: names) = " -> ".intercalate (name :: names) ↔ name ≠ "" := by
  constructor
  · rintro htext rfl
    have hlength := congrArg String.length htext
    have hle := length_chainText_le names
    rw [String.intercalate_cons_of_ne_nil h, String.length_append, String.length_append] at hlength
    have harrow : " -> ".length = 4 := rfl
    have hfirst : chainText ("" :: names) = chainText names := rfl
    rw [hfirst] at hlength
    omega
  · intro hname
    exact foldl_appendName hname

end ShapeError

section Paths

variable {ι : Type} [DecidableEq ι] {t : ShapeTable ι} {r : Registry ι} {root : ι}

/-- A recursion error names a chain of shapes that leads from the root back to one of them. -/
theorem Registry.exists_loopsBack
    {names : List String}
    (hr : r.Sound t) (h : (r.paths t root).1 = .error (.recursiveShape names)) :
    ∃ lineage repeated,
      t.LoopsBack root lineage repeated ∧
      names = (lineage ++ [repeated]).map fun i => (t.shape i).name := by
  obtain ⟨stop, above, j, hleads, hrefused, hgains⟩ := exists_stop_of_error hr h
  have hfit : ∀ earlier passed k, t.Leads root earlier passed k → earlier < stop →
      k ∉ passed ∧ t.Passes k :=
    fun earlier passed k hk hlt => hgains.fit earlier passed k hk hlt
  rcases hrefused with ⟨hj, he⟩ | ⟨_, he⟩
  · refine ⟨above, j, ⟨?_, hleads.isChain, ?_, fun i hi => ?_, hj⟩, ?_⟩
    · have hhead := hleads.head?_eq
      rwa [List.head?_append_of_ne_nil _ (List.ne_nil_of_mem hj)] at hhead
    · exact hleads.nodup fun earlier passed k hk hlt => (hfit earlier passed k hk hlt).1
    · obtain ⟨earlier, passed, hi, hlt⟩ := hleads.exists_lt_of_mem hi
      exact (hfit earlier passed i hi hlt).2
    · exact ShapeError.recursiveShape.inj he
  · exact absurd he (t.check_ne_recursiveShape j)

/--
Whatever has been asked of a registry before: a recursion error, of the field paths or of
the field list of a shape, names a chain of nested shapes that begins at this shape.  All
but the last one are different and pass their checks, and the last one is among them.
The reported text joins the names without the empty ones at the beginning, which are all
names iff the shape itself has a name that is not empty.
-/
theorem recursiveShape_names_loop
    (t : ShapeTable ι) (calls : List (RegistryCall ι)) (root : ι) (names : List String) :
    let r := Registry.empty.after t calls
    (r.paths t root).1 = .error (.recursiveShape names) ∨
        (r.fieldList t root).1 = .error (.recursiveShape names) →
      (∃ lineage repeated,
        t.LoopsBack root lineage repeated ∧
        names = (lineage ++ [repeated]).map fun i => (t.shape i).name) ∧
      ShapeError.chainText names = " -> ".intercalate (names.dropWhile (· = "")) ∧
      (ShapeError.chainText names = " -> ".intercalate names ↔ (t.shape root).name ≠ "") := by
  intro r herror
  have hr : r.Sound t := Registry.sound_after t calls
  have hpaths : (r.paths t root).1 = .error (.recursiveShape names) :=
    herror.elim id ((Registry.fieldList_fst_cases t r root).2 _).mp
  obtain ⟨lineage, repeated, hloop, hnames⟩ := Registry.exists_loopsBack hr hpaths
  refine ⟨⟨lineage, repeated, hloop, hnames⟩, ShapeError.chainText_eq_intercalate names, ?_⟩
  obtain ⟨inner, rfl⟩ := List.head?_eq_some_iff.mp hloop.head?_eq
  rw [hnames, List.cons_append, List.map_cons]
  exact ShapeError.chainText_cons_eq_iff (by simp)

/-- The shapes of a game of two players. -/
inductive PairShape
  | ping
  | pong
  deriving DecidableEq

/-- The two shapes nest each other, and the first one has the given name. -/
def pairTable (name : String) : ShapeTable PairShape where
  shape
    | .ping => ⟨name, [⟨"id", .scalar⟩, ⟨"pong", .nested .pong⟩]⟩
    | .pong => ⟨"Pong", [⟨"ping", .nested .ping⟩]⟩
  ids := [.ping, .pong]
  mem_ids i := by
    cases i <;> simp

/-- With names, the chain is shown from the root on. -/
theorem recursiveShape_names_loop_pairTable :
    let r := Registry.empty.after (pairTable "Ping") [.resolve .pong]
    let names := ["Ping", "Pong", "Ping"]
    (r.paths (pairTable "Ping") .ping).1 = .error (.recursiveShape names) ∧
    (∃ lineage repeated,
      (pairTable "Ping").LoopsBack .ping lineage repeated ∧
      names = (lineage ++ [repeated]).map fun i => ((pairTable "Ping").shape i).name) ∧
    ShapeError.chainText names = " -> ".intercalate names := by
  intro r names
  have herror : (r.paths (pairTable "Ping") .ping).1 = .error (.recursiveShape names) := by
    cbv
  obtain ⟨hloop, _, htext⟩ :=
    recursiveShape_names_loop (pairTable "Ping") [.resolve .pong] .ping names (.inl herror)
  exact ⟨herror, hloop, htext.mpr (by decide)⟩

/-- The empty name of the root is missing at the beginning of the text, but not at its end. -/
theorem chainText_unnamed_pairTable :
    let names := ["", "Pong", ""]
    ((Registry.empty.after (pairTable "") []).paths (pairTable "") .ping).1 =
      .error (.recursiveShape names) ∧
    ShapeError.chainText names = "Pong -> " ∧
    ShapeError.chainText names ≠ " -> ".intercalate names := by
  refine ⟨by cbv, by decide, by decide⟩

end Paths
end ShapeQuery
