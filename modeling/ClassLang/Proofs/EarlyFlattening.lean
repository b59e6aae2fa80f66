import ClassLang.Proofs.Flattening

/-!
# Blocks flattened early

A block inside a block may be flattened before the whole is. What the whole is flattened to does not
change, since a flattened block holds the leaves of the block in its place, with the properties
between them and that place already in front (`Block.flatten_normalize`). So blocks may be flattened
at any places in any order, in particular the inner ones first.
-/

namespace ClassLang

/-! ### The leaves of a list of declarations -/

theorem leavesOf_map_leaf (ls : List Leaf) : leavesOf (ls.map .leaf) = ls := by
  induction ls with
  | nil => rfl
  | cons l ls ih => exact congrArg (l :: ·) ih

theorem flattenBlocks_map_leaf (inherited : List Property) (ls : List Leaf) :
    flattenBlocks inherited (ls.map .leaf) = [] := by
  induction ls with
  | nil => rfl
  | cons l ls ih => exact ih

theorem leavesOf_set_block {ds : List Declaration} {i : Nat} {ps qs : List Property}
    {inner inner' : List Declaration} (h : ds[i]? = some (.block ps inner)) :
    leavesOf (ds.set i (.block qs inner')) = leavesOf ds := by
  induction ds generalizing i with
  | nil => rfl
  | cons d ds ih =>
    cases i with
    | zero =>
      obtain rfl := Option.some.inj h
      rfl
    | succ i =>
      have hrest : leavesOf (ds.set i (.block qs inner')) = leavesOf ds := ih h
      cases d with
      | leaf l => exact congrArg (l :: ·) hrest
      | block rs ds' => exact hrest

/-- Blocks with the same leaves may stand in each other's place. -/
theorem flattenBlocks_set {ds : List Declaration} {i : Nat} {d e : Declaration}
    {inherited : List Property} (h : ds[i]? = some d)
    (he : e.flatten inherited = d.flatten inherited) :
    flattenBlocks inherited (ds.set i e) = flattenBlocks inherited ds := by
  induction ds generalizing i with
  | nil => rfl
  | cons c ds ih =>
    cases i with
    | zero =>
      obtain rfl := Option.some.inj h
      rw [List.set_cons_zero, flattenBlocks, flattenBlocks, he]
    | succ i =>
      have hrest : flattenBlocks inherited (ds.set i e) = flattenBlocks inherited ds := ih h
      rw [List.set_cons_succ, flattenBlocks, flattenBlocks, hrest]

/-! ### Properties around a block -/

theorem map_propagate_propagate (ps qs : List Property) (ls : List Leaf) :
    (ls.map (Leaf.propagate qs)).map (Leaf.propagate ps) = ls.map (Leaf.propagate (ps ++ qs)) := by
  rw [List.map_map]
  exact List.map_congr_left fun l _ => l.propagate_propagate ps qs

mutual

/-- The outer part of what is inherited may be put in front at the end. -/
theorem Declaration.flatten_append (ps qs : List Property) :
    (d : Declaration) → d.flatten (ps ++ qs) = (d.flatten qs).map (Leaf.propagate ps)
  | .leaf _ => rfl
  | .block rs inner => by
    rw [Declaration.flatten, Declaration.flatten, List.map_append, map_propagate_propagate,
      List.append_assoc, flattenBlocks_append ps (qs ++ rs) inner]

theorem flattenBlocks_append (ps qs : List Property) :
    (ds : List Declaration) →
      flattenBlocks (ps ++ qs) ds = (flattenBlocks qs ds).map (Leaf.propagate ps)
  | [] => rfl
  | d :: ds => by
    rw [flattenBlocks, flattenBlocks, List.map_append, Declaration.flatten_append ps qs d,
      flattenBlocks_append ps qs ds]

end

namespace Block

variable {b : Block}

theorem flatten_eq_map (b : Block) (inherited : List Property) :
    b.flatten inherited = b.flat.map (Leaf.propagate inherited) := by
  have h := b.toDeclaration.flatten_append inherited []
  rw [List.append_nil] at h
  rw [flat_eq_flatten]
  exact h

/-- A flattened block holds the same leaves, wherever it stands. -/
theorem flatten_normalize (b : Block) (inherited : List Property) :
    b.normalize.flatten inherited = b.flatten inherited := by
  show (leavesOf (b.flat.map .leaf)).map (Leaf.propagate (inherited ++ [])) ++
    flattenBlocks (inherited ++ []) (b.flat.map .leaf) = _
  rw [leavesOf_map_leaf, flattenBlocks_map_leaf, List.append_nil, List.append_nil,
    flatten_eq_map b inherited]

theorem normalize_eq_of_flatten {b c : Block} (h : c.flatten [] = b.flatten []) :
    c.flat = b.flat ∧ c.normalize = b.normalize := by
  have hflat : c.flat = b.flat := by rw [flat_eq_flatten, flat_eq_flatten, h]
  exact ⟨hflat, by rw [normalize, normalize, hflat]⟩

/-! ### Flattening at a place -/

/-- The block with the block at a place flattened. Where no block stands nothing is changed. -/
def normalizeAt (b : Block) : List Nat → Block
  | [] => b.normalize
  | i :: path =>
    match b.inner[i]? with
    | some (.block ps inner) =>
      ⟨b.properties, b.inner.set i (normalizeAt ⟨ps, inner⟩ path).toDeclaration⟩
    | _ => b

theorem flatten_normalizeAt (b : Block) (path : List Nat) (inherited : List Property) :
    (b.normalizeAt path).flatten inherited = b.flatten inherited := by
  induction path generalizing b inherited with
  | nil => exact flatten_normalize b inherited
  | cons i path ih =>
    rw [normalizeAt]
    split
    · rename_i ps inner h
      have hinner := ih ⟨ps, inner⟩ (inherited ++ b.properties)
      show (leavesOf (b.inner.set i _)).map _ ++ flattenBlocks _ (b.inner.set i _) = _
      rw [flattenBlocks_set h hinner]
      congr 2
      exact leavesOf_set_block h
    · rfl

theorem flatten_foldl_normalizeAt (b : Block) (paths : List (List Nat))
    (inherited : List Property) :
    (paths.foldl normalizeAt b).flatten inherited = b.flatten inherited := by
  induction paths generalizing b with
  | nil => rfl
  | cons path paths ih => rw [List.foldl_cons, ih, flatten_normalizeAt]

/-- Blocks that are flattened early, at any places and one after the other, do not change what the
whole is flattened to, nor its fields and methods. At the place of the whole itself: flattening
twice is flattening once. -/
theorem normalize_foldl_normalizeAt (b : Block) (paths : List (List Nat)) :
    (paths.foldl normalizeAt b).normalize = b.normalize ∧
      (paths.foldl normalizeAt b).fields = b.fields ∧
      (paths.foldl normalizeAt b).methods = b.methods ∧
      b.normalizeAt [] = b.normalize ∧ b.normalize.normalize = b.normalize := by
  obtain ⟨hflat, hnormalize⟩ := normalize_eq_of_flatten (flatten_foldl_normalizeAt b paths [])
  have htwice := normalize_eq_of_flatten (flatten_normalize b [])
  refine ⟨hnormalize, ?_, ?_, rfl, htwice.2⟩
  · rw [fields, fields, hflat]
  · rw [methods, methods, hflat]

end Block

end ClassLang
