import ShapeQuery.Proofs.CheckOutcome
import ShapeQuery.Proofs.JoinedText
import ShapeQuery.Proofs.PathsOutcome

/-!
# Name trees

The name tree of a shape is what its field list is meant to say: the names of its
fields in order, each nested field with the name tree of the shape nested in it.

**Reading back.**  Splitting a field list at its separator gives the paths.  A path
begins with the name of a field, up to the first dot, and the paths of one field stand
side by side; so if the names of a shape differ from each other, the paths that begin
alike are those of one field, and what follows the dot in them is the field list one
level deeper.

**Names.**  A name may hold anything but a dot and the separator.
-/

namespace ShapeQuery

/-- A field by its name, with the fields below it if it is nested. -/
inductive NameNode
  | leaf (name : String)
  | nested (name : String) (below : List NameNode)

namespace NameNode

def name : NameNode → String
  | leaf name => name
  | nested name _ => name

mutual

def paths : NameNode → List String
  | leaf name => [name]
  | nested name below => (pathsOf below).map (name ++ Token.pathSeparator ++ ·)

/-- The paths of fields, one field after another. -/
def pathsOf : List NameNode → List String
  | [] => []
  | node :: rest => node.paths ++ pathsOf rest

end

theorem pathsOf_eq_flatMap
    (nodes : List NameNode) :
    pathsOf nodes = nodes.flatMap paths := by
  induction nodes with
  | nil =>
      rw [pathsOf]
      rfl
  | cons node rest ih =>
      rw [pathsOf, ih, List.flatMap_cons]

/-- The part of a path before its first dot. -/
def firstSegment (path : String) : List Char :=
  path.toList.takeWhile (· ≠ '.')

theorem takeWhile_ne_of_notMem
    {cs : List Char}
    (h : '.' ∉ cs) :
    cs.takeWhile (· ≠ '.') = cs := by
  rw [List.takeWhile_eq_self_iff]
  intro c hc
  exact decide_eq_true fun hdot => h (hdot ▸ hc)

theorem firstSegment_dotted
    {name : String}
    (hdot : '.' ∉ name.toList) (inner : String) :
    firstSegment (name ++ Token.pathSeparator ++ inner) = name.toList := by
  rw [firstSegment, String.append_assoc, String.toList_append, String.toList_append,
    List.takeWhile_append_of_pos]
  · simp [Token.pathSeparator]
  · intro c hc
    exact decide_eq_true fun h => hdot (h ▸ hc)

variable {node : NameNode} {p : String}

/-- The paths of a field begin with its name. -/
theorem firstSegment_of_mem_paths
    (hdot : '.' ∉ node.name.toList) (hp : p ∈ node.paths) :
    firstSegment p = node.name.toList := by
  cases node with
  | leaf name =>
      rw [paths, List.mem_singleton] at hp
      subst hp
      exact takeWhile_ne_of_notMem hdot
  | nested name below =>
      rw [paths, List.mem_map] at hp
      obtain ⟨inner, _, rfl⟩ := hp
      exact firstSegment_dotted hdot inner

/-- Fields whose paths can be told apart. -/
structure Distinct (nodes : List NameNode) : Prop where
  names : (nodes.map name).Nodup
  dots : ∀ node ∈ nodes, '.' ∉ node.name.toList
  paths : ∀ node ∈ nodes, node.paths ≠ []

theorem Distinct.tail
    {nodes : List NameNode}
    (h : Distinct (node :: nodes)) :
    Distinct nodes where
  names := (List.nodup_cons.mp h.names).2
  dots := (List.forall_mem_cons.mp h.dots).2
  paths := (List.forall_mem_cons.mp h.paths).2

/-- The paths of the fields after the first do not begin with its name. -/
theorem Distinct.firstSegment_ne
    {nodes : List NameNode}
    (h : Distinct (node :: nodes)) (hp : p ∈ pathsOf nodes) :
    firstSegment p ≠ node.name.toList := by
  rw [pathsOf_eq_flatMap, List.mem_flatMap] at hp
  obtain ⟨other, hother, hp⟩ := hp
  rw [firstSegment_of_mem_paths (h.tail.dots other hother) hp]
  intro heq
  refine (List.nodup_cons.mp h.names).1 ?_
  rw [← String.toList_inj.mp heq]
  exact List.mem_map_of_mem hother

/-- The paths of the first field are those that begin with its name. -/
theorem Distinct.takeWhile_pathsOf
    {nodes : List NameNode}
    (h : Distinct (node :: nodes)) :
    (pathsOf (node :: nodes)).takeWhile (firstSegment · = node.name.toList) = node.paths ∧
    (pathsOf (node :: nodes)).dropWhile (firstSegment · = node.name.toList) = pathsOf nodes := by
  have hown : ∀ p ∈ node.paths, decide (firstSegment p = node.name.toList) = true := by
    intro p hp
    exact decide_eq_true (firstSegment_of_mem_paths (h.dots node List.mem_cons_self) hp)
  rw [pathsOf, List.takeWhile_append_of_pos hown, List.dropWhile_append_of_pos hown]
  cases hrest : pathsOf nodes with
  | nil =>
      simp
  | cons p rest =>
      have hp : firstSegment p ≠ node.name.toList :=
        h.firstSegment_ne (hrest ▸ List.mem_cons_self)
      simp [hp]

/-- Fields told apart are determined by their paths, if each of them is by its own. -/
theorem Distinct.eq_of_pathsOf_eq
    {xs ys : List NameNode}
    (hxs : Distinct xs) (hys : Distinct ys)
    (hnode : ∀ x ∈ xs, ∀ y ∈ ys, x.name = y.name → x.paths = y.paths → x = y)
    (h : pathsOf xs = pathsOf ys) :
    xs = ys := by
  induction xs generalizing ys with
  | nil =>
      cases ys with
      | nil =>
          rfl
      | cons y ys =>
          have hempty : y.paths ++ pathsOf ys = [] := by
            simpa [pathsOf] using h.symm
          exact absurd (List.append_eq_nil_iff.mp hempty).1 (hys.paths y List.mem_cons_self)
  | cons x xs ih =>
      cases ys with
      | nil =>
          have hempty : x.paths ++ pathsOf xs = [] := by
            simpa [pathsOf] using h
          exact absurd (List.append_eq_nil_iff.mp hempty).1 (hxs.paths x List.mem_cons_self)
      | cons y ys =>
          obtain ⟨p, more, hp⟩ := List.exists_cons_of_ne_nil (hxs.paths x List.mem_cons_self)
          obtain ⟨q, more', hq⟩ := List.exists_cons_of_ne_nil (hys.paths y List.mem_cons_self)
          have hpq : p = q := by
            rw [pathsOf, pathsOf, hp, hq] at h
            exact (List.cons.inj h).1
          have hsegment : x.name.toList = y.name.toList := by
            rw [← firstSegment_of_mem_paths (hxs.dots x List.mem_cons_self) (hp ▸ List.mem_cons_self),
              ← firstSegment_of_mem_paths (hys.dots y List.mem_cons_self) (hq ▸ List.mem_cons_self),
              hpq]
          obtain ⟨htake, hdrop⟩ := hxs.takeWhile_pathsOf
          obtain ⟨htake', hdrop'⟩ := hys.takeWhile_pathsOf
          rw [hsegment, h] at htake hdrop
          have hxy : x = y :=
            hnode x List.mem_cons_self y List.mem_cons_self (String.toList_inj.mp hsegment)
              (htake.symm.trans htake')
          have htail : xs = ys := by
            refine ih hxs.tail hys.tail (fun x' hx' y' hy' => ?_) (hdrop.symm.trans hdrop')
            exact hnode x' (List.mem_cons_of_mem _ hx') y' (List.mem_cons_of_mem _ hy')
          rw [hxy, htail]

/-- Name trees that can be read back from their paths. -/
inductive Legible : List NameNode → Prop
  | intro {nodes : List NameNode} :
      nodes ≠ [] →
      (nodes.map name).Nodup →
      (∀ node ∈ nodes, '.' ∉ node.name.toList ∧ Unseparated node.name) →
      (∀ name below, nested name below ∈ nodes → Legible below) →
      Legible nodes

theorem Legible.pathsOf_ne_nil
    {nodes : List NameNode}
    (h : Legible nodes) :
    (∀ node ∈ nodes, node.paths ≠ []) ∧ pathsOf nodes ≠ [] := by
  induction h with
  | @intro nodes hne _ _ _ ih =>
      have hpaths : ∀ node ∈ nodes, node.paths ≠ [] := by
        intro node hnode
        cases node with
        | leaf name =>
            simp [paths]
        | nested name below =>
            simpa [paths] using (ih name below hnode).2
      refine ⟨hpaths, ?_⟩
      cases nodes with
      | nil =>
          exact absurd rfl hne
      | cons node rest =>
          rw [pathsOf]
          exact List.append_ne_nil_of_left_ne_nil (hpaths node List.mem_cons_self) _

theorem Legible.distinct
    {nodes : List NameNode}
    (h : Legible nodes) :
    Distinct nodes := by
  have hpaths := h.pathsOf_ne_nil.1
  cases h with
  | intro _ hnames hplain _ =>
      exact ⟨hnames, fun node hnode => (hplain node hnode).1, hpaths⟩

/-- No path of a legible tree holds the separator of field lists. -/
theorem Legible.unseparated
    {nodes : List NameNode}
    (h : Legible nodes) :
    ∀ p ∈ pathsOf nodes, Unseparated p := by
  induction h with
  | intro _ _ hplain _ ih =>
      intro p hp
      rw [pathsOf_eq_flatMap, List.mem_flatMap] at hp
      obtain ⟨node, hnode, hp⟩ := hp
      have hname := (hplain node hnode).2
      cases node with
      | leaf name =>
          rw [paths, List.mem_singleton] at hp
          subst hp
          exact hname
      | nested name below =>
          rw [paths, List.mem_map] at hp
          obtain ⟨inner, hinner, rfl⟩ := hp
          have hdot : '.' ∉ Token.fieldSeparator.toList := by
            decide
          have hchars : (name ++ Token.pathSeparator ++ inner).toList =
              name.toList ++ '.' :: inner.toList := by
            simp [Token.pathSeparator, String.toList_append]
          rw [Unseparated, hchars, infix_append_cons_iff hdot, not_or]
          exact ⟨hname, ih name below hnode inner hinner⟩

theorem paths_leaf_ne_paths_nested
    (name : String) (below : List NameNode) :
    (leaf name).paths ≠ (nested name below).paths := by
  intro h
  have hmem : name ∈ (nested name below).paths := by
    rw [← h, paths]
    exact List.mem_cons_self
  rw [paths, List.mem_map] at hmem
  obtain ⟨inner, _, heq⟩ := hmem
  have hlength := congrArg String.length heq
  have hdot : Token.pathSeparator.length = 1 := rfl
  rw [String.length_append, String.length_append, hdot] at hlength
  omega

theorem pathsOf_eq_of_paths_nested_eq
    {name : String} {below below' : List NameNode}
    (h : (nested name below).paths = (nested name below').paths) :
    pathsOf below = pathsOf below' := by
  rw [paths, paths] at h
  refine List.map_injective_iff.mpr ?_ h
  intro inner inner' heq
  exact (String.append_right_inj _).mp heq

/-- Legible name trees with the same paths are the same. -/
theorem Legible.eq_of_pathsOf_eq
    {xs ys : List NameNode}
    (hxs : Legible xs) (hys : Legible ys) (h : pathsOf xs = pathsOf ys) :
    xs = ys := by
  induction hxs generalizing ys with
  | @intro xs hne hnames hplain hbelow ih =>
      refine Distinct.eq_of_pathsOf_eq (Legible.intro hne hnames hplain hbelow).distinct
        hys.distinct ?_ h
      intro x hx y hy hname hpaths
      cases x with
      | leaf name =>
          cases y with
          | leaf name' =>
              cases hname
              rfl
          | nested name' below' =>
              cases hname
              exact absurd hpaths (paths_leaf_ne_paths_nested _ _)
      | nested name below =>
          cases y with
          | leaf name' =>
              cases hname
              exact absurd hpaths.symm (paths_leaf_ne_paths_nested _ _)
          | nested name' below' =>
              cases hname
              cases hys with
              | intro _ _ _ hbelow' =>
                  rw [ih name below hx (hbelow' name below' hy)
                    (pathsOf_eq_of_paths_nested_eq hpaths)]

end NameNode

section Shapes

variable {ι : Type} {t : ShapeTable ι} {i root : ι}

/-- A leaf field is a leaf, and a nested field stands over the fields of its shape. -/
def nameGathering : ShapeTable.Gathering ι NameNode where
  leaf name := [.leaf name]
  nested name _ below := [.nested name below]

/-- The names of the fields of a shape, those of nested shapes below them. -/
def ShapeTable.nameTree (t : ShapeTable ι) (i : ι) (ends : t.Ends i) : List NameNode :=
  t.gather nameGathering i ends

/-- The names in a shape differ, and hold neither a dot nor the separator. -/
structure ShapeTable.PlainNames (t : ShapeTable ι) (i : ι) : Prop where
  nodup : ((t.shape i).fields.map DeclaredField.name).Nodup
  dots : ∀ d ∈ (t.shape i).fields, '.' ∉ d.name.toList
  separators : ∀ d ∈ (t.shape i).fields, Unseparated d.name

instance (t : ShapeTable ι) (i : ι) : Decidable (t.PlainNames i) :=
  decidable_of_iff
    (((t.shape i).fields.map DeclaredField.name).Nodup ∧
      (∀ d ∈ (t.shape i).fields, '.' ∉ d.name.toList) ∧
      ∀ d ∈ (t.shape i).fields, Unseparated d.name)
    ⟨fun h => ⟨h.1, h.2.1, h.2.2⟩, fun h => ⟨h.1, h.2, h.3⟩⟩

/-- The expansion of a shape is the paths of its name tree. -/
theorem ShapeTable.pathsOf_nameTree
    (t : ShapeTable ι) (i : ι) (ends : t.Ends i) :
    NameNode.pathsOf (t.nameTree i ends) = t.expansion i ends := by
  rw [NameNode.pathsOf_eq_flatMap]
  refine ShapeTable.flatMap_gather ?_ ?_ i ends
  · intro name
    simp [nameGathering, pathGathering, NameNode.paths]
  · intro name child inner
    simp [nameGathering, pathGathering, NameNode.paths, NameNode.pathsOf_eq_flatMap]

/-- The node of a checked field, given the nodes below nested fields. -/
def CheckedField.nameNode (below : ι → List NameNode) (f : CheckedField ι) : NameNode :=
  match f.kind with
  | .nested child => .nested f.name (below child)
  | _ => .leaf f.name

theorem CheckedField.name_nameNode
    (below : ι → List NameNode) (f : CheckedField ι) :
    (f.nameNode below).name = f.declared.name := by
  rcases f with ⟨name, kind⟩
  cases kind <;> rfl

theorem ofFields_nameGathering
    (below : ι → List NameNode) (own : List (CheckedField ι)) :
    nameGathering.ofFields below own = own.map (CheckedField.nameNode below) := by
  rw [ShapeTable.Gathering.ofFields, List.map_eq_flatMap]
  refine List.flatMap_congr fun f _ => ?_
  rcases f with ⟨name, kind⟩
  cases kind <;> rfl

/-- The name tree of a queryable shape is legible if all names in its reach are plain. -/
theorem ShapeTable.Queryable.legible
    {below : ι → List NameNode}
    (hbelow : ∀ i, t.Ends i →
      below i = (t.shape i).fields.flatMap (nameGathering.ofField below))
    (hroot : t.Queryable root) (hnames : ∀ i, t.Reaches root i → t.PlainNames i) :
    NameNode.Legible (below root) := by
  induction hroot with
  | @intro i c hc hchildren ih =>
      obtain ⟨hne, _, _, _, hdeclared⟩ := Shape.check_eq_ok_iff.mp hc
      have hends : t.Ends i := (ShapeTable.Queryable.intro hc hchildren).ends
      have hplain := hnames i .refl
      have hnodes : (c.fields.map (CheckedField.nameNode below)).map NameNode.name =
          (t.shape i).fields.map DeclaredField.name := by
        rw [← hdeclared, List.map_map, List.map_map]
        exact List.map_congr_left fun f _ => f.name_nameNode below
      rw [hbelow i hends, ← ShapeTable.Gathering.ofFields_of_check hc, ofFields_nameGathering]
      refine .intro ?_ ?_ ?_ ?_
      · rintro hnil
        rw [List.map_eq_nil_iff] at hnil
        exact hne (by rw [← hdeclared, hnil]; rfl)
      · rw [hnodes]
        exact hplain.nodup
      · intro node hnode
        have hname : node.name ∈ (t.shape i).fields.map DeclaredField.name := by
          rw [← hnodes]
          exact List.mem_map_of_mem hnode
        obtain ⟨d, hd, hname⟩ := List.mem_map.mp hname
        rw [← hname]
        exact ⟨hplain.dots d hd, hplain.separators d hd⟩
      · intro name inner hnode
        obtain ⟨f, hf, hnode⟩ := List.mem_map.mp hnode
        rcases f with ⟨fname, kind⟩
        cases kind with
        | nested child =>
            have hchild := (t.nests_iff_of_check hc).mpr ⟨_, hf, rfl⟩
            obtain ⟨_, rfl⟩ := NameNode.nested.inj hnode
            exact ih child hchild fun j hj => hnames j (.head hchild hj)
        | scalar | scalarCollection =>
            cases hnode

end Shapes

section FieldLists

variable {ι : Type} [DecidableEq ι] {t : ShapeTable ι} {r : Registry ι} {root : ι}

/-- Over a sound registry, the field paths of a shape are the paths of its name tree. -/
theorem Registry.Sound.paths_eq_pathsOf
    {ps : List String}
    (hr : r.Sound t) (h : (r.paths t root).1 = .ok ps) :
    ∃ ends : t.Ends root, ps = NameNode.pathsOf (t.nameTree root ends) := by
  obtain ⟨below, hbelow⟩ := t.exists_gather_eq pathGathering
  obtain ⟨home, hhome, hback, rfl⟩ := Registry.paths_eq_ok.mp h
  obtain ⟨hqueryable, _, hpaths⟩ :=
    (Walk.adds_of_back fun i ends => (hbelow i ends).2).1 (Walk.start r) root hr home hhome hback
  refine ⟨hqueryable.ends, ?_⟩
  rw [ShapeTable.pathsOf_nameTree, ShapeTable.expansion, (hbelow root hqueryable.ends).1]
  simp [hpaths, Walk.start]

/--
A field list joins the paths of a name tree.  If all names are plain, the tree is
legible, and its paths are found again by splitting the field list.
-/
theorem Registry.Sound.exists_nameTree_of_fieldList
    {text : String}
    (hr : r.Sound t) (h : (r.fieldList t root).1 = .ok text)
    (hnames : ∀ i, t.Reaches root i → t.PlainNames i) :
    ∃ ends : t.Ends root,
      NameNode.Legible (t.nameTree root ends) ∧
      text = Token.fieldSeparator.intercalate (NameNode.pathsOf (t.nameTree root ends)) ∧
      (text.split Token.fieldSeparator).toList.map String.Slice.copy =
        NameNode.pathsOf (t.nameTree root ends) ∧
      (r.paths t root).1 = .ok (NameNode.pathsOf (t.nameTree root ends)) := by
  rw [Registry.fieldList_eq] at h
  cases hpaths : (r.paths t root).1 with
  | error e =>
      simp [hpaths, Except.map] at h
  | ok ps =>
      simp only [hpaths, Except.map, Except.ok.injEq] at h
      obtain ⟨ends, rfl⟩ := hr.paths_eq_pathsOf hpaths
      obtain ⟨below, hbelow⟩ := t.exists_gather_eq nameGathering
      have hlegible := (Registry.queryable_of_paths_eq_ok hr hpaths).legible
        (fun i ends => (hbelow i ends).2) hnames
      rw [← (hbelow root ends).1] at hlegible
      refine ⟨ends, hlegible, h.symm, ?_, rfl⟩
      rw [← h]
      exact split_intercalate_fieldSeparator hlegible.pathsOf_ne_nil.2 hlegible.unseparated

end FieldLists

/--
Two shapes have the same field list iff they have the same name tree, if the names in
each shape that either of them reaches differ and hold neither a dot nor the
separator.  Splitting such a field list at the separator gives the field paths.
-/
theorem fieldList_eq_iff_nameTree_eq
    {ι κ : Type} [DecidableEq ι] [DecidableEq κ]
    (t : ShapeTable ι) (calls : List (RegistryCall ι)) (root : ι) (text : String)
    (t' : ShapeTable κ) (calls' : List (RegistryCall κ)) (root' : κ) (text' : String)
    (h : ((Registry.empty.after t calls).fieldList t root).1 = .ok text)
    (h' : ((Registry.empty.after t' calls').fieldList t' root').1 = .ok text')
    (hnames : ∀ i, t.Reaches root i → t.PlainNames i)
    (hnames' : ∀ i, t'.Reaches root' i → t'.PlainNames i) :
    (∃ (ends : t.Ends root) (ends' : t'.Ends root'),
      text = text' ↔ t.nameTree root ends = t'.nameTree root' ends') ∧
    ((Registry.empty.after t calls).paths t root).1 =
      .ok ((text.split Token.fieldSeparator).toList.map String.Slice.copy) := by
  obtain ⟨ends, hlegible, htext, hsplit, hpaths⟩ :=
    (Registry.sound_after t calls).exists_nameTree_of_fieldList h hnames
  obtain ⟨ends', hlegible', htext', hsplit', _⟩ :=
    (Registry.sound_after t' calls').exists_nameTree_of_fieldList h' hnames'
  refine ⟨⟨ends, ends', ?_, ?_⟩, by rw [hsplit, hpaths]⟩
  · rintro rfl
    exact hlegible.eq_of_pathsOf_eq hlegible' (hsplit.symm.trans hsplit')
  · intro htree
    rw [htext, htext', htree]

/-- Two shapes over one nested shape, with a comma and a space beside the separator. -/
def commaTable : ShapeTable (Fin 3) where
  shape
    | 0 => ⟨"Cover", [⟨"url,", .scalar⟩]⟩
    | 1 => ⟨"Game", [⟨"cover", .nested 0⟩, ⟨" name", .scalar⟩]⟩
    | 2 => ⟨"Film", [⟨"cover", .nested 0⟩, ⟨" name", .scalarCollection⟩]⟩
  ids := [0, 1, 2]
  mem_ids := by decide

/-- The two shapes share their field list and their name tree. -/
theorem fieldList_eq_iff_nameTree_eq_commaTable :
    let r := Registry.empty.after commaTable []
    let r' := Registry.empty.after commaTable [.resolve 2, .paths 0]
    (r.fieldList commaTable 1).1 = .ok "cover.url,,  name" ∧
    (r'.fieldList commaTable 2).1 = .ok "cover.url,,  name" ∧
    (∀ i, commaTable.PlainNames i) ∧
    (∃ ends ends', commaTable.nameTree 1 ends = commaTable.nameTree 2 ends') ∧
    (r.paths commaTable 1).1 =
      .ok (("cover.url,,  name".split Token.fieldSeparator).toList.map String.Slice.copy) := by
  have h : ((Registry.empty.after commaTable []).fieldList commaTable 1).1 =
      .ok "cover.url,,  name" := by
    cbv
  have h' : ((Registry.empty.after commaTable [.resolve 2, .paths 0]).fieldList commaTable 2).1 =
      .ok "cover.url,,  name" := by
    cbv
  have hnames : ∀ i, commaTable.PlainNames i := by
    decide
  obtain ⟨⟨ends, ends', htree⟩, hsplit⟩ :=
    fieldList_eq_iff_nameTree_eq commaTable [] 1 _ commaTable [.resolve 2, .paths 0] 2 _
      h h' (fun i _ => hnames i) (fun i _ => hnames i)
  exact ⟨h, h', hnames, ⟨ends, ends', htree.mp rfl⟩, hsplit⟩

end ShapeQuery
