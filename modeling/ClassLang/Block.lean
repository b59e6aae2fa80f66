import ClassLang.Declaration

/-!
# Flattening of blocks

Nested blocks are flattened into leaves that carry the properties of every block around them,
outermost first. A block's own leaves come before those of the blocks inside it, and these blocks
follow in the order in which they are declared. `flat` works on a list of pending blocks, so the
depth of nesting costs no recursion; `flatten` says the same by recursion on the block, and
`flat_eq_flatten` that the two agree.
-/

namespace ClassLang

/-! ### The parts of a list of declarations -/

def leavesOf (ds : List Declaration) : List Leaf := ds.filterMap Declaration.leaf?

def blocksOf (ds : List Declaration) : List Block := ds.filterMap Declaration.block?

mutual

/-- The number of blocks in a declaration. -/
def Declaration.blockCount : Declaration → Nat
  | .leaf _ => 0
  | .block _ inner => 1 + blockCounts inner

def blockCounts : List Declaration → Nat
  | [] => 0
  | d :: ds => d.blockCount + blockCounts ds

end

def Block.blockCount (b : Block) : Nat := 1 + blockCounts b.inner

/-! ### Flattening by a list of pending blocks -/

/-- A block that waits to be flattened, with the properties of the blocks around it, the last one
first. -/
structure Pending where
  around : List Property
  block : Block

namespace Pending

def inherited (p : Pending) : List Property := p.around.reverse

def scope (p : Pending) : List Property := p.inherited ++ p.block.properties

def leaves (p : Pending) : List Leaf :=
  match leavesOf p.block.inner with
  | [] => []
  | ls => ls.map (Leaf.propagate p.scope)

def nested (p : Pending) : List Pending :=
  (blocksOf p.block.inner).map (Pending.mk (p.block.properties.reverse ++ p.around))

theorem leaves_eq (p : Pending) :
    p.leaves = (leavesOf p.block.inner).map (Leaf.propagate p.scope) := by
  unfold leaves
  split
  · rename_i h
    rw [h, List.map_nil]
  · rfl

theorem inherited_nested (p : Pending) (b : Block) :
    (Pending.mk (p.block.properties.reverse ++ p.around) b).inherited = p.scope := by
  rw [inherited, List.reverse_append, List.reverse_reverse, scope, inherited]

/-- The work that a list of pending blocks stands for. -/
def work : List Pending → Nat
  | [] => 0
  | p :: ps => p.block.blockCount + work ps

theorem work_append (ps qs : List Pending) : work (ps ++ qs) = work ps + work qs := by
  induction ps with
  | nil => rw [List.nil_append, work, Nat.zero_add]
  | cons p ps ih => rw [List.cons_append, work, work, ih, Nat.add_assoc]

theorem work_blocksOf (around : List Property) (ds : List Declaration) :
    work ((blocksOf ds).map (Pending.mk around)) = blockCounts ds := by
  induction ds with
  | nil => rfl
  | cons d ds ih =>
    cases d with
    | leaf l => rw [blockCounts, Declaration.blockCount, Nat.zero_add, ← ih]; rfl
    | block ps inner => rw [blockCounts, ← ih]; rfl

theorem work_nested (p : Pending) : work p.nested + 1 = p.block.blockCount := by
  rw [nested, work_blocksOf, Block.blockCount, Nat.add_comm]

/-- Flattens pending blocks: the first one gives its leaves and puts its blocks in front. -/
def flat : List Pending → List Leaf
  | [] => []
  | p :: rest => p.leaves ++ flat (p.nested ++ rest)
  termination_by ps => work ps
  decreasing_by
    rw [work_append, work, ← work_nested p]
    omega

end Pending

namespace Block

def flat (b : Block) : List Leaf := Pending.flat [⟨[], b⟩]

/-- A block of leaves only, with the same leaves and the same properties on each. -/
def normalize (b : Block) : Block := ⟨[], b.flat.map .leaf⟩

def fields (b : Block) : List Field := b.flat.filterMap Leaf.field?

def methods (b : Block) : List Method := b.flat.filterMap Leaf.method?

/-- Puts properties in front of those of the direct leaves and leaves nested blocks as they are. -/
def propagate (ps : List Property) (b : Block) : Block :=
  { b with inner := b.inner.map fun
      | .leaf l => .leaf (l.propagate ps)
      | .block qs inner => .block qs inner }

/-- A block that holds nothing but the given one. -/
def wrap (ps : List Property) (b : Block) : Block := ⟨ps, [b.toDeclaration]⟩

def append (b : Block) (d : Declaration) : Block := { b with inner := b.inner ++ [d] }

/-- Flattening twice gives what flattening once gives. -/
def isStable (b : Block) : Bool := b.normalize.flat == b.flat

end Block

/-! ### Flattening by recursion -/

mutual

/-- The leaves inside a declaration that is a block, under the properties around it. -/
def Declaration.flatten (inherited : List Property) : Declaration → List Leaf
  | .leaf _ => []
  | .block ps inner =>
    (leavesOf inner).map (Leaf.propagate (inherited ++ ps)) ++ flattenBlocks (inherited ++ ps) inner

/-- The leaves inside the blocks among declarations, block after block. -/
def flattenBlocks (inherited : List Property) : List Declaration → List Leaf
  | [] => []
  | d :: ds => d.flatten inherited ++ flattenBlocks inherited ds

end

def Block.flatten (inherited : List Property) (b : Block) : List Leaf :=
  b.toDeclaration.flatten inherited

theorem flattenBlocks_eq_flatMap (inherited : List Property) (ds : List Declaration) :
    flattenBlocks inherited ds = (blocksOf ds).flatMap (Block.flatten inherited) := by
  induction ds with
  | nil => rfl
  | cons d ds ih =>
    cases d with
    | leaf l =>
      simp only [flattenBlocks, Declaration.flatten, ih, blocksOf, List.filterMap_cons,
        Declaration.block?, List.nil_append]
    | block ps inner =>
      simp only [flattenBlocks, ih, blocksOf, List.filterMap_cons, Declaration.block?,
        List.flatMap_cons, Block.flatten, Block.toDeclaration]

theorem Block.flatten_eq (inherited : List Property) (b : Block) :
    b.flatten inherited = (leavesOf b.inner).map (Leaf.propagate (inherited ++ b.properties)) ++
      (blocksOf b.inner).flatMap (Block.flatten (inherited ++ b.properties)) := by
  rw [← flattenBlocks_eq_flatMap]
  simp only [flatten, toDeclaration, Declaration.flatten]

theorem Pending.flat_eq_flatMap (ps : List Pending) :
    flat ps = ps.flatMap fun p => p.block.flatten p.inherited := by
  fun_induction flat ps with
  | case1 => rfl
  | case2 p rest ih =>
    rw [ih, List.flatMap_append, List.flatMap_cons, Block.flatten_eq, ← List.append_assoc,
      leaves_eq]
    simp only [nested, List.flatMap_map, inherited_nested, scope]

theorem Block.flat_eq_flatten (b : Block) : b.flat = b.flatten [] := by
  rw [flat, Pending.flat_eq_flatMap]
  simp only [List.flatMap_cons, List.flatMap_nil, List.append_nil, Pending.inherited,
    List.reverse_nil]

end ClassLang
