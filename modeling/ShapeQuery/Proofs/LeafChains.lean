import ShapeQuery.Proofs.NameTree

/-!
# Leaf chains

A leaf chain of a shape goes down from one of its fields: through nested fields, each
of them a field of the shape nested in the field before, to a leaf field.  The names
of its fields, with a dot between each two, are its path.

**Existence.**  Nesting ends below a queryable shape and no table that is met is empty,
so a queryable shape has a leaf chain (`Queryable.exists_leafChain`).

**Paths.**  The field paths of a shape are the paths of its leaf chains
(`mem_expansion_iff`).  If the names in each shape differ and hold no dot, the
segments of a path are the names of its chain, and they determine the chain field by
field; and paths that begin with different fields of a shape are different, so that no
path is listed twice.
-/

namespace ShapeQuery

section Definition

variable {ι : Type}

/-- The field ends a path. -/
def DeclaredField.IsLeaf (d : DeclaredField ι) : Prop :=
  d.content = .scalar ∨ d.content = .scalarCollection

/-- The names of fields with a dot between each two. -/
def DeclaredField.dotted (ds : List (DeclaredField ι)) : String :=
  Token.pathSeparator.intercalate (ds.map name)

/-- The texts between the dots of a path. -/
def segments (path : String) : List String :=
  (path.split '.').toList.map String.Slice.copy

namespace ShapeTable

/-- Fields from a shape downwards, all of them nested but the last, which is a leaf field. -/
inductive LeafChain (t : ShapeTable ι) : ι → List (DeclaredField ι) → Prop
  | leaf {i : ι} {d : DeclaredField ι} :
      d ∈ (t.shape i).fields →
      d.IsLeaf →
      LeafChain t i [d]
  | nested {i child : ι} {d : DeclaredField ι} {ds : List (DeclaredField ι)} :
      d ∈ (t.shape i).fields →
      d.content = .nested child →
      LeafChain t child ds →
      LeafChain t i (d :: ds)

/-- In the shape and in all shapes that it reaches, the names differ and hold no dot. -/
def NamesApart (t : ShapeTable ι) (root : ι) : Prop :=
  ∀ i, t.Reaches root i →
    ((t.shape i).fields.map DeclaredField.name).Nodup ∧
    ∀ d ∈ (t.shape i).fields, '.' ∉ d.name.toList

end ShapeTable
end Definition

section Chains

variable {ι : Type} {t : ShapeTable ι} {i child root : ι}
variable {d : DeclaredField ι} {ds ds' : List (DeclaredField ι)} {p : String}

namespace ShapeTable

theorem NamesApart.of_nests
    (h : t.NamesApart i) (hchild : t.Nests i child) :
    t.NamesApart child :=
  fun j hj => h j (.head hchild hj)

theorem LeafChain.ne_nil
    (h : t.LeafChain i ds) :
    ds ≠ [] := by
  cases h <;> simp

theorem LeafChain.dotted_cons
    (h : t.LeafChain i ds) (d : DeclaredField ι) :
    DeclaredField.dotted (d :: ds) = d.name ++ Token.pathSeparator ++ DeclaredField.dotted ds := by
  have hne : ds.map DeclaredField.name ≠ [] := by
    simpa using h.ne_nil
  rw [DeclaredField.dotted, List.map_cons, String.intercalate_cons_of_ne_nil hne]
  rfl

/-- Each field of a leaf chain is a field of a shape that is reached. -/
theorem LeafChain.exists_reaches
    (h : t.LeafChain i ds) :
    ∀ d ∈ ds, ∃ j, t.Reaches i j ∧ d ∈ (t.shape j).fields := by
  induction h with
  | leaf hd _ =>
      intro d' hd'
      rw [List.mem_singleton.mp hd']
      exact ⟨_, .refl, hd⟩
  | nested hd hcontent _ ih =>
      intro d' hd'
      rcases List.mem_cons.mp hd' with rfl | hd'
      · exact ⟨_, .refl, hd⟩
      · obtain ⟨j, hreach, hj⟩ := ih d' hd'
        exact ⟨j, .head ⟨_, hd, hcontent⟩ hreach, hj⟩

/-- A queryable shape has a leaf chain. -/
theorem Queryable.exists_leafChain
    (h : t.Queryable i) :
    ∃ ds, t.LeafChain i ds := by
  induction h with
  | @intro i c hc _ ih =>
      obtain ⟨hne, hfit, _⟩ := Shape.check_eq_ok_iff.mp hc
      obtain ⟨d, rest, hfields⟩ := List.exists_cons_of_ne_nil hne
      have hd : d ∈ (t.shape i).fields := by
        rw [hfields]
        exact List.mem_cons_self
      cases hcontent : d.content with
      | scalar =>
          exact ⟨[d], .leaf hd (.inl hcontent)⟩
      | scalarCollection =>
          exact ⟨[d], .leaf hd (.inr hcontent)⟩
      | nested child =>
          obtain ⟨ds, hds⟩ := ih child ⟨d, hd, hcontent⟩
          exact ⟨d :: ds, .nested hd hcontent hds⟩
      | nestedCollection child =>
          exact absurd hcontent ((hfit d hd).single child)

end ShapeTable

/-- A leaf field gives its name, a nested field the inner paths behind its name. -/
theorem mem_ofField_pathGathering_iff
    {below : ι → List String} :
    p ∈ pathGathering.ofField below d ↔
      d.IsLeaf ∧ p = d.name ∨
      ∃ child inner,
        d.content = .nested child ∧ inner ∈ below child ∧
        p = d.name ++ Token.pathSeparator ++ inner := by
  rcases d with ⟨name, content⟩
  cases content <;>
    simp [ShapeTable.Gathering.ofField, pathGathering, DeclaredField.IsLeaf, eq_comm]

namespace ShapeTable

/-- The field paths of a shape are the paths of its leaf chains. -/
theorem mem_expansion_iff
    (ends : t.Ends i) :
    p ∈ t.expansion i ends ↔ ∃ ds, t.LeafChain i ds ∧ DeclaredField.dotted ds = p := by
  obtain ⟨below, hbelow⟩ := t.exists_gather_eq pathGathering
  rw [expansion, (hbelow i ends).1]
  induction ends generalizing p with
  | intro i hchildren ih =>
      rw [(hbelow i (.intro i hchildren)).2, List.mem_flatMap]
      simp only [mem_ofField_pathGathering_iff]
      constructor
      · rintro ⟨d, hd, ⟨hleaf, rfl⟩ | ⟨child, inner, hcontent, hinner, rfl⟩⟩
        · exact ⟨[d], .leaf hd hleaf, by simp [DeclaredField.dotted]⟩
        · obtain ⟨ds, hds, rfl⟩ := (ih child ⟨d, hd, hcontent⟩).mp hinner
          exact ⟨d :: ds, .nested hd hcontent hds, hds.dotted_cons d⟩
      · rintro ⟨ds, hds, rfl⟩
        cases hds with
        | @leaf _ d hd hleaf =>
            exact ⟨d, hd, .inl ⟨hleaf, by simp [DeclaredField.dotted]⟩⟩
        | @nested _ child d ds hd hcontent hds =>
            have hinner := (ih child ⟨d, hd, hcontent⟩).mpr ⟨ds, hds, rfl⟩
            exact ⟨d, hd, .inr ⟨child, _, hcontent, hinner, hds.dotted_cons d⟩⟩

/-- The segments of the path of a leaf chain are the names of its fields. -/
theorem LeafChain.segments_dotted
    (h : t.LeafChain i ds) (hnames : t.NamesApart i) :
    segments (DeclaredField.dotted ds) = ds.map DeclaredField.name := by
  have hdots : ∀ name ∈ ds.map DeclaredField.name, '.' ∉ name.toList := by
    intro name hname
    obtain ⟨d, hd, rfl⟩ := List.mem_map.mp hname
    obtain ⟨j, hreach, hj⟩ := h.exists_reaches d hd
    exact (hnames j hreach).2 d hj
  have hsplit := String.toList_split_intercalate hdots
  rw [if_neg (by simpa using h.ne_nil)] at hsplit
  exact hsplit

theorem NamesApart.eq_of_name_eq
    {d' : DeclaredField ι}
    (hnames : t.NamesApart i)
    (hd : d ∈ (t.shape i).fields) (hd' : d' ∈ (t.shape i).fields) (h : d.name = d'.name) :
    d = d' :=
  List.inj_on_of_nodup_map (hnames i .refl).1 hd hd' h

/-- Where names differ, the names of a leaf chain determine its fields. -/
theorem LeafChain.eq_of_map_name_eq
    (h : t.LeafChain i ds) (h' : t.LeafChain i ds') (hnames : t.NamesApart i)
    (heq : ds.map DeclaredField.name = ds'.map DeclaredField.name) :
    ds = ds' := by
  induction h generalizing ds' with
  | leaf hd _ =>
      cases h' with
      | leaf hd' _ =>
          rw [hnames.eq_of_name_eq hd hd' (List.cons.inj heq).1]
      | nested hd' _ hds' =>
          exact absurd (List.map_eq_nil_iff.mp (List.cons.inj heq).2.symm) hds'.ne_nil
  | nested hd hcontent hds ih =>
      cases h' with
      | leaf hd' _ =>
          exact absurd (List.map_eq_nil_iff.mp (List.cons.inj heq).2) hds.ne_nil
      | nested hd' hcontent' hds' =>
          obtain ⟨hname, hrest⟩ := List.cons.inj heq
          obtain rfl := hnames.eq_of_name_eq hd hd' hname
          obtain rfl := FieldContent.nested.inj (hcontent.symm.trans hcontent')
          rw [ih hds' (hnames.of_nests ⟨_, hd, hcontent⟩) hrest]

/-- A path that a field gives begins with the name of the field. -/
theorem firstSegment_of_mem_ofField
    {below : ι → List String}
    (hdot : '.' ∉ d.name.toList) (hp : p ∈ pathGathering.ofField below d) :
    NameNode.firstSegment p = d.name.toList := by
  rcases mem_ofField_pathGathering_iff.mp hp with ⟨_, rfl⟩ | ⟨_, inner, _, _, rfl⟩
  · exact NameNode.takeWhile_ne_of_notMem hdot
  · exact NameNode.firstSegment_dotted hdot inner

theorem nodup_ofField_pathGathering
    {below : ι → List String}
    (h : ∀ child, d.content = .nested child → (below child).Nodup) :
    (pathGathering.ofField below d).Nodup := by
  rcases d with ⟨name, content⟩
  cases content with
  | scalar | scalarCollection =>
      exact List.nodup_singleton name
  | nested child =>
      refine (h child rfl).map fun inner inner' heq => ?_
      exact (String.append_right_inj _).mp heq
  | nestedCollection child =>
      exact List.nodup_nil

/-- Where names differ and hold no dot, no field path is listed twice. -/
theorem nodup_expansion
    (ends : t.Ends i) (hnames : t.NamesApart i) :
    (t.expansion i ends).Nodup := by
  obtain ⟨below, hbelow⟩ := t.exists_gather_eq pathGathering
  rw [expansion, (hbelow i ends).1]
  induction ends with
  | intro i hchildren ih =>
      obtain ⟨hdiffer, hdots⟩ := hnames i .refl
      rw [(hbelow i (.intro i hchildren)).2, List.nodup_flatMap]
      constructor
      · intro d hd
        refine nodup_ofField_pathGathering fun child hcontent => ?_
        exact ih child ⟨d, hd, hcontent⟩ (hnames.of_nests ⟨d, hd, hcontent⟩)
      · refine (List.pairwise_map.mp hdiffer).imp_of_mem fun hd hd' hne p hp hp' => hne ?_
        rw [← String.toList_inj, ← firstSegment_of_mem_ofField (hdots _ hd) hp,
          firstSegment_of_mem_ofField (hdots _ hd') hp']

/-- Every field of a leaf chain below a queryable shape has a name that is not blank. -/
theorem LeafChain.not_isBlank
    (h : t.LeafChain i ds) (hi : t.Queryable i) :
    ∀ d ∈ ds, Text.isBlank d.name = false := by
  intro d hd
  obtain ⟨j, hreach, hj⟩ := h.exists_reaches d hd
  obtain ⟨c, hc⟩ := hi.passes hreach
  exact ((Shape.check_eq_ok_iff.mp hc).2.1 d hj).named

/-- The path of a leaf chain begins with the name of a field of the shape. -/
theorem LeafChain.not_isBlank_dotted
    (h : t.LeafChain i ds) (hi : t.Queryable i) :
    Text.isBlank (DeclaredField.dotted ds) = false := by
  have hnames := h.not_isBlank hi
  cases h with
  | leaf _ _ =>
      simpa [DeclaredField.dotted] using hnames
  | @nested _ _ d _ _ _ hds =>
      obtain ⟨c, hc, hwhite⟩ := Text.isBlank_eq_false_iff.mp (hnames d List.mem_cons_self)
      rw [hds.dotted_cons, Text.isBlank_eq_false_iff]
      refine ⟨c, ?_, hwhite⟩
      simp only [String.toList_append, List.mem_append]
      exact .inl (.inl hc)

end ShapeTable
end Chains

section Paths

variable {ι : Type} [DecidableEq ι]

/--
A shape that has field paths has at least one, and none of them is blank.  If in the
shape and in all shapes that it reaches the names differ and hold no dot, no path is
listed twice, no segment of a path is blank, and the paths are those of the leaf chains
of the shape, with exactly one chain for each.
-/
theorem paths_of_leafChains
    (t : ShapeTable ι) (calls : List (RegistryCall ι)) (root : ι) (ps : List String)
    (h : ((Registry.empty.after t calls).paths t root).1 = .ok ps) :
    ps ≠ [] ∧
    (∀ p ∈ ps, ∃ c ∈ p.toList, Text.isWhiteSpace c = false) ∧
    (t.NamesApart root →
      ps.Nodup ∧
      (∀ p ∈ ps, ∀ s ∈ segments p, Text.isBlank s = false) ∧
      (∀ p ∈ ps, ∃! ds, t.LeafChain root ds ∧ DeclaredField.dotted ds = p) ∧
      ∀ ds, t.LeafChain root ds → DeclaredField.dotted ds ∈ ps) := by
  have hr : (Registry.empty.after t calls).Sound t := Registry.sound_after t calls
  have hroot : t.Queryable root := Registry.queryable_of_paths_eq_ok hr h
  obtain ⟨ends, rfl⟩ := hr.paths_eq_pathsOf h
  rw [ShapeTable.pathsOf_nameTree]
  refine ⟨?_, fun p hp => ?_, fun hnames => ⟨ShapeTable.nodup_expansion ends hnames, ?_, ?_, ?_⟩⟩
  · obtain ⟨ds, hds⟩ := hroot.exists_leafChain
    exact List.ne_nil_of_mem ((ShapeTable.mem_expansion_iff ends).mpr ⟨ds, hds, rfl⟩)
  · obtain ⟨ds, hds, rfl⟩ := (ShapeTable.mem_expansion_iff ends).mp hp
    exact Text.isBlank_eq_false_iff.mp (hds.not_isBlank_dotted hroot)
  · intro p hp s hs
    obtain ⟨ds, hds, rfl⟩ := (ShapeTable.mem_expansion_iff ends).mp hp
    rw [hds.segments_dotted hnames] at hs
    obtain ⟨d, hd, rfl⟩ := List.mem_map.mp hs
    exact hds.not_isBlank hroot d hd
  · intro p hp
    obtain ⟨ds, hds, rfl⟩ := (ShapeTable.mem_expansion_iff ends).mp hp
    refine ⟨ds, ⟨hds, rfl⟩, fun ds' ⟨hds', heq⟩ => ?_⟩
    refine hds'.eq_of_map_name_eq hds hnames ?_
    rw [← hds'.segments_dotted hnames, ← hds.segments_dotted hnames, heq]
  · intro ds hds
    exact (ShapeTable.mem_expansion_iff ends).mpr ⟨ds, hds, rfl⟩

/-- One shape that is nested under two fields of another. -/
def twinTable : ShapeTable (Fin 2) where
  shape
    | 0 => ⟨"Image", [⟨"url", .scalar⟩]⟩
    | 1 => ⟨"Game", [⟨"cover", .nested 0⟩, ⟨"logo", .nested 0⟩]⟩
  ids := List.finRange 2
  mem_ids := List.mem_finRange

/-- The nested shape gives one path for each of the two fields. -/
theorem paths_of_leafChains_twinTable :
    ((Registry.empty.after twinTable [.resolve 0]).paths twinTable 1).1 =
      .ok ["cover.url", "logo.url"] ∧
    twinTable.NamesApart 1 ∧
    ["cover.url", "logo.url"].Nodup ∧
    ∃! ds, twinTable.LeafChain 1 ds ∧ DeclaredField.dotted ds = "logo.url" := by
  have h : ((Registry.empty.after twinTable [.resolve 0]).paths twinTable 1).1 =
      .ok ["cover.url", "logo.url"] := by
    cbv
  have hshapes : ∀ i, ((twinTable.shape i).fields.map DeclaredField.name).Nodup ∧
      ∀ d ∈ (twinTable.shape i).fields, '.' ∉ d.name.toList := by
    decide
  have hnames : twinTable.NamesApart 1 := fun i _ => hshapes i
  obtain ⟨_, _, hapart⟩ := paths_of_leafChains twinTable [.resolve 0] 1 _ h
  obtain ⟨hnodup, _, hchain, _⟩ := hapart hnames
  exact ⟨h, hnames, hnodup, hchain _ (by decide)⟩

end Paths
end ShapeQuery
