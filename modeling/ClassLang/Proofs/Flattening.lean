import ClassLang.Block
import Mathlib.Data.List.Forall2
import Mathlib.Logic.Function.Iterate

/-!
# The flattening loop

A round of the loop takes the first pending block, gives its leaves and puts the blocks inside it in
front of the others. What the leaves and the pending blocks stand for together is kept by a round
(`Flattening.outcome_step`), and the number of pending blocks, nested ones included, falls by one.
A place in a block is the list of indices that leads to it. Main statement: the loop ends with the
leaves of the recursive flattening, one for each place of a leaf, those of a block in front of those
inside its blocks, each with the properties of the blocks around it.
-/

namespace ClassLang

/-! ### Rounds -/

/-- The state of the loop: the blocks that wait, the next one first, and the leaves so far. -/
structure Flattening where
  pending : List Pending
  leaves : List Leaf

namespace Flattening

def start (b : Block) : Flattening := ⟨[⟨[], b⟩], []⟩

def step (s : Flattening) : Flattening :=
  match s.pending with
  | [] => s
  | p :: rest => ⟨p.nested ++ rest, s.leaves ++ p.leaves⟩

def outcome (s : Flattening) : List Leaf :=
  s.leaves ++ s.pending.flatMap fun p => p.block.flatten p.inherited

theorem flatten_pending (p : Pending) :
    p.block.flatten p.inherited =
      p.leaves ++ p.nested.flatMap fun q => q.block.flatten q.inherited := by
  rw [Block.flatten_eq, Pending.leaves_eq, Pending.nested, List.flatMap_map]
  simp only [Pending.inherited_nested, Pending.scope]

theorem outcome_step (s : Flattening) : s.step.outcome = s.outcome := by
  obtain ⟨pending, leaves⟩ := s
  cases pending with
  | nil => rfl
  | cons p rest =>
    simp only [step, outcome, List.flatMap_append, List.flatMap_cons, flatten_pending p,
      List.append_assoc]

theorem work_step {s : Flattening} (h : s.pending ≠ []) :
    Pending.work s.step.pending + 1 = Pending.work s.pending := by
  obtain ⟨pending, leaves⟩ := s
  cases pending with
  | nil => exact absurd rfl h
  | cons p rest =>
    have hwork : Pending.work (p :: rest) = p.block.blockCount + Pending.work rest := rfl
    have hnested := Pending.work_nested p
    rw [step, Pending.work_append, hwork]
    omega

theorem pending_ne_nil {s : Flattening} (h : Pending.work s.pending ≠ 0) : s.pending ≠ [] := by
  intro hnil
  rw [hnil] at h
  exact h rfl

theorem pending_eq_nil {s : Flattening} (h : Pending.work s.pending = 0) : s.pending = [] := by
  by_contra hne
  have hwork := work_step hne
  omega

theorem outcome_iterate (s : Flattening) (n : Nat) : (step^[n] s).outcome = s.outcome := by
  induction n with
  | zero => rfl
  | succ n ih => rw [Function.iterate_succ_apply', outcome_step, ih]

theorem work_iterate (s : Flattening) {n : Nat} (h : n ≤ Pending.work s.pending) :
    Pending.work (step^[n] s).pending + n = Pending.work s.pending := by
  induction n with
  | zero => rfl
  | succ n ih =>
    -- while there is work left a block is pending, so the round does not stand still
    have hwork := ih (Nat.le_of_succ_le h)
    have hne : (step^[n] s).pending ≠ [] := pending_ne_nil (by omega)
    have hstep := work_step hne
    rw [Function.iterate_succ_apply']
    omega

theorem work_start (b : Block) : Pending.work (start b).pending = b.blockCount := rfl

theorem outcome_start (b : Block) : (start b).outcome = b.flatten [] := by
  simp only [outcome, start, List.flatMap_cons, List.flatMap_nil, List.append_nil,
    List.nil_append, Pending.inherited, List.reverse_nil]

/-- The loop ends after as many rounds as there are blocks, and no earlier. -/
theorem iterate_blockCount (b : Block) :
    step^[b.blockCount] (start b) = ⟨[], b.flatten []⟩ := by
  have hwork := work_iterate (start b) (Nat.le_refl _)
  rw [work_start] at hwork
  have hnil := pending_eq_nil (s := step^[b.blockCount] (start b)) (by omega)
  have hout := outcome_iterate (start b) b.blockCount
  rw [outcome_start, outcome, hnil, List.flatMap_nil, List.append_nil] at hout
  rw [← hout, ← hnil]

theorem pending_iterate_ne_nil (b : Block) {n : Nat} (h : n < b.blockCount) :
    (step^[n] (start b)).pending ≠ [] := by
  have hwork := work_iterate (start b) (Nat.le_of_lt h)
  rw [work_start] at hwork
  exact pending_ne_nil (by omega)

end Flattening

/-! ### Places of leaves -/

/-- The places of the leaves among declarations that start at an index. -/
def leafPlaces (i : Nat) : List Declaration → List (List Nat)
  | [] => []
  | .leaf _ :: ds => [i] :: leafPlaces (i + 1) ds
  | .block _ _ :: ds => leafPlaces (i + 1) ds

mutual

/-- The places of the leaves inside a declaration that is a block, in the order in which they are
flattened. -/
def Declaration.places : Declaration → List (List Nat)
  | .leaf _ => []
  | .block _ inner => leafPlaces 0 inner ++ blockPlaces 0 inner

def blockPlaces (i : Nat) : List Declaration → List (List Nat)
  | [] => []
  | d :: ds => d.places.map (i :: ·) ++ blockPlaces (i + 1) ds

end

namespace Block

def places (b : Block) : List (List Nat) := b.toDeclaration.places

/-- The leaf at a place, as it is declared. -/
def leaf? (b : Block) : List Nat → Option Leaf
  | [] => none
  | i :: path =>
    match b.inner[i]? with
    | none => none
    | some (.leaf l) => if path = [] then some l else none
    | some (.block ps inner) => leaf? ⟨ps, inner⟩ path

/-- The properties of the blocks around a place, outermost first. -/
def scope (b : Block) : List Nat → List Property
  | [] => b.properties
  | i :: path =>
    match b.inner[i]? with
    | some (.block ps inner) => b.properties ++ scope ⟨ps, inner⟩ path
    | _ => b.properties

end Block

/-- The order of flattening: leaves of a block by index and in front of those inside its blocks, and
blocks by index. -/
inductive Precedes : List Nat → List Nat → Prop
  | leaves {i j : Nat} (h : i < j) : Precedes [i] [j]
  | leafFirst {i j k : Nat} {q : List Nat} : Precedes [i] (j :: k :: q)
  | blocks {i j k l : Nat} {p q : List Nat} (h : i < j) : Precedes (i :: k :: p) (j :: l :: q)
  | inside {i : Nat} {p q : List Nat} (h : Precedes p q) : Precedes (i :: p) (i :: q)

theorem Precedes.irrefl {p : List Nat} : ¬Precedes p p := by
  induction p with
  | nil => exact nofun
  | cons i p ih =>
    intro h
    cases h with
    | leaves h => exact Nat.lt_irrefl i h
    | blocks h => exact Nat.lt_irrefl i h
    | inside h => exact ih h

theorem index_shift (i k : Nat) : i + 1 + k = i + (k + 1) := by
  omega

theorem mem_leafPlaces {i : Nat} {ds : List Declaration} {path : List Nat} :
    path ∈ leafPlaces i ds ↔ ∃ k l, path = [i + k] ∧ ds[k]? = some (.leaf l) := by
  induction ds generalizing i with
  | nil => simp [leafPlaces]
  | cons d ds ih =>
    cases d with
    | leaf l =>
      rw [leafPlaces, List.mem_cons, ih]
      constructor
      · rintro (rfl | ⟨k, m, rfl, hk⟩)
        · exact ⟨0, l, rfl, rfl⟩
        · exact ⟨k + 1, m, by rw [index_shift], hk⟩
      · rintro ⟨k, m, rfl, hk⟩
        cases k with
        | zero => exact Or.inl rfl
        | succ k => exact Or.inr ⟨k, m, by rw [index_shift], hk⟩
    | block ps inner =>
      rw [leafPlaces, ih]
      constructor
      · rintro ⟨k, m, rfl, hk⟩
        exact ⟨k + 1, m, by rw [index_shift], hk⟩
      · rintro ⟨k, m, rfl, hk⟩
        cases k with
        | zero => cases hk
        | succ k => exact ⟨k, m, by rw [index_shift], hk⟩

theorem mem_blockPlaces {i : Nat} {ds : List Declaration} {path : List Nat} :
    path ∈ blockPlaces i ds ↔
      ∃ k d rest, path = (i + k) :: rest ∧ ds[k]? = some d ∧ rest ∈ d.places := by
  induction ds generalizing i with
  | nil => simp [blockPlaces]
  | cons d ds ih =>
    rw [blockPlaces, List.mem_append, List.mem_map, ih]
    constructor
    · rintro (⟨rest, hrest, rfl⟩ | ⟨k, e, rest, rfl, hk, hrest⟩)
      · exact ⟨0, d, rest, rfl, rfl, hrest⟩
      · exact ⟨k + 1, e, rest, by rw [index_shift], hk, hrest⟩
    · rintro ⟨k, e, rest, rfl, hk, hrest⟩
      cases k with
      | zero =>
        obtain rfl := Option.some.inj hk
        exact Or.inl ⟨rest, hrest, rfl⟩
      | succ k =>
        exact Or.inr ⟨k, e, rest, by rw [index_shift], hk, hrest⟩

theorem Block.places_eq (b : Block) : b.places = leafPlaces 0 b.inner ++ blockPlaces 0 b.inner := by
  rw [places, toDeclaration, Declaration.places]

theorem Declaration.ne_nil_of_mem_places {d : Declaration} {path : List Nat}
    (h : path ∈ d.places) : path ≠ [] := by
  cases d with
  | leaf l => cases h
  | block ps inner =>
    rw [places, List.mem_append, mem_leafPlaces, mem_blockPlaces] at h
    rcases h with ⟨k, l, rfl, -⟩ | ⟨k, e, rest, rfl, -, -⟩
    · exact List.cons_ne_nil _ _
    · exact List.cons_ne_nil _ _

theorem Block.mem_places {b : Block} {path : List Nat} :
    path ∈ b.places ↔ (b.leaf? path).isSome = true := by
  induction path generalizing b with
  | nil => exact ⟨fun h => absurd rfl (Declaration.ne_nil_of_mem_places h), nofun⟩
  | cons i path ih =>
    rw [places_eq, List.mem_append, mem_leafPlaces, mem_blockPlaces]
    simp only [Nat.zero_add, List.cons.injEq]
    constructor
    · rintro (⟨k, l, ⟨rfl, rfl⟩, hk⟩ | ⟨k, d, rest, ⟨rfl, rfl⟩, hk, hrest⟩)
      · simp only [leaf?, hk, if_true, Option.isSome_some]
      · cases d with
        | leaf l => cases hrest
        | block ps inner =>
          simp only [leaf?, hk]
          exact ih.1 hrest
    · intro h
      cases hk : b.inner[i]? with
      | none => simp only [leaf?, hk, Option.isSome_none, Bool.false_eq_true] at h
      | some d =>
        cases d with
        | leaf l =>
          simp only [leaf?, hk] at h
          split at h
          · rename_i hp
            exact Or.inl ⟨i, l, ⟨rfl, hp⟩, hk⟩
          · cases h
        | block ps inner =>
          simp only [leaf?, hk] at h
          exact Or.inr ⟨i, _, path, ⟨rfl, rfl⟩, hk, ih.2 h⟩

/-! ### The order of places -/

theorem pairwise_leafPlaces (i : Nat) (ds : List Declaration) :
    (leafPlaces i ds).Pairwise Precedes := by
  induction ds generalizing i with
  | nil => exact .nil
  | cons d ds ih =>
    cases d with
    | leaf l =>
      refine List.pairwise_cons.2 ⟨?_, ih (i + 1)⟩
      intro path hpath
      obtain ⟨k, m, rfl, -⟩ := mem_leafPlaces.1 hpath
      exact .leaves (by omega)
    | block ps inner => exact ih (i + 1)

mutual

theorem Declaration.pairwise_places : (d : Declaration) → d.places.Pairwise Precedes
  | .leaf _ => .nil
  | .block ps inner => by
    refine List.pairwise_append.2 ⟨pairwise_leafPlaces 0 inner, pairwise_blockPlaces 0 inner, ?_⟩
    intro p hp q hq
    obtain ⟨k, l, rfl, -⟩ := mem_leafPlaces.1 hp
    obtain ⟨j, d, rest, rfl, -, hrest⟩ := mem_blockPlaces.1 hq
    obtain ⟨m, rest, rfl⟩ := List.exists_cons_of_ne_nil (Declaration.ne_nil_of_mem_places hrest)
    exact .leafFirst

theorem pairwise_blockPlaces (i : Nat) :
    (ds : List Declaration) → (blockPlaces i ds).Pairwise Precedes
  | [] => .nil
  | d :: ds => by
    refine List.pairwise_append.2 ⟨?_, pairwise_blockPlaces (i + 1) ds, ?_⟩
    · exact List.pairwise_map.2 ((Declaration.pairwise_places d).imp .inside)
    · intro p hp q hq
      obtain ⟨rest, hrest, rfl⟩ := List.mem_map.1 hp
      obtain ⟨k, e, rest', rfl, -, hrest'⟩ := mem_blockPlaces.1 hq
      obtain ⟨m, rest, rfl⟩ := List.exists_cons_of_ne_nil (Declaration.ne_nil_of_mem_places hrest)
      obtain ⟨m', rest', rfl⟩ :=
        List.exists_cons_of_ne_nil (Declaration.ne_nil_of_mem_places hrest')
      exact .blocks (by omega)

end

theorem Block.nodup_places (b : Block) : b.places.Nodup := by
  refine (Declaration.pairwise_places b.toDeclaration).imp ?_
  rintro p q h rfl
  exact h.irrefl

/-! ### The leaf at each place -/

/-- Whether a leaf is the one at a place, with the properties of all blocks around it in front. -/
def Block.Yields (b : Block) (inherited : List Property) (path : List Nat) (l : Leaf) : Prop :=
  ∃ m, b.leaf? path = some m ∧ l = m.propagate (inherited ++ b.scope path)

theorem Block.yields_leaf {b : Block} {inherited : List Property} {i : Nat} {l : Leaf}
    (h : b.inner[i]? = some (.leaf l)) :
    b.Yields inherited [i] (l.propagate (inherited ++ b.properties)) := by
  refine ⟨l, ?_, ?_⟩
  · simp only [leaf?, h, if_true]
  · simp only [scope, h]

theorem Block.yields_block {b : Block} {inherited ps : List Property} {i : Nat} {path : List Nat}
    {inner : List Declaration} {l : Leaf} (h : b.inner[i]? = some (.block ps inner))
    (hl : (Block.mk ps inner).Yields (inherited ++ b.properties) path l) :
    b.Yields inherited (i :: path) l := by
  obtain ⟨m, hm, rfl⟩ := hl
  refine ⟨m, ?_, ?_⟩
  · simp only [leaf?, h, hm]
  · simp only [scope, h, List.append_assoc]

theorem Block.yields_leafPlaces {b : Block} {inherited : List Property}
    {front ds : List Declaration} (h : b.inner = front ++ ds) :
    List.Forall₂ (b.Yields inherited) (leafPlaces front.length ds)
      ((leavesOf ds).map (Leaf.propagate (inherited ++ b.properties))) := by
  induction ds generalizing front with
  | nil => exact .nil
  | cons d ds ih =>
    have hrest : b.inner = front ++ [d] ++ ds := by
      rw [h, List.append_assoc, List.singleton_append]
    have hds := ih hrest
    rw [List.length_append, List.length_singleton] at hds
    cases d with
    | leaf l =>
      have hat : b.inner[front.length]? = some (.leaf l) := by
        rw [h, List.getElem?_append_right (Nat.le_refl _), Nat.sub_self]
        rfl
      exact .cons (yields_leaf hat) hds
    | block ps inner => exact hds

mutual

theorem Declaration.yields_places (inherited : List Property) :
    (d : Declaration) → ∀ b : Block, d = b.toDeclaration →
      List.Forall₂ (b.Yields inherited) d.places (d.flatten inherited)
  | .leaf _ => nofun
  | .block ps inner => by
    rintro ⟨qs, ds⟩ h
    obtain ⟨rfl, rfl⟩ := Declaration.block.inj h
    rw [Declaration.places, Declaration.flatten]
    exact List.rel_append (Block.yields_leafPlaces (List.nil_append inner).symm)
      (yields_blockPlaces inherited inner ⟨ps, inner⟩ [] rfl)

theorem yields_blockPlaces (inherited : List Property) :
    (ds : List Declaration) → ∀ (b : Block) (front : List Declaration), b.inner = front ++ ds →
      List.Forall₂ (b.Yields inherited) (blockPlaces front.length ds)
        (flattenBlocks (inherited ++ b.properties) ds)
  | [] => fun _ _ _ => .nil
  | d :: ds => by
    intro b front h
    have hrest : b.inner = front ++ [d] ++ ds := by
      rw [h, List.append_assoc, List.singleton_append]
    have hds := yields_blockPlaces inherited ds b (front ++ [d]) hrest
    rw [List.length_append, List.length_singleton] at hds
    rw [blockPlaces, flattenBlocks]
    refine List.rel_append ?_ hds
    cases d with
    | leaf l => exact .nil
    | block ps inner =>
      have hat : b.inner[front.length]? = some (.block ps inner) := by
        rw [h, List.getElem?_append_right (Nat.le_refl _), Nat.sub_self]
        rfl
      have hd := Declaration.yields_places (inherited ++ b.properties) (.block ps inner)
        ⟨ps, inner⟩ rfl
      exact List.forall₂_map_left_iff.2 (hd.imp fun _ _ => Block.yields_block hat)

end

theorem Block.yields_flatten (b : Block) (inherited : List Property) :
    List.Forall₂ (b.Yields inherited) b.places (b.flatten inherited) :=
  Declaration.yields_places inherited b.toDeclaration b rfl

/-! ### Leaves in the order of declaration -/

mutual

/-- The leaves in a declaration in the order in which they are declared. -/
def Declaration.sourceLeaves (inherited : List Property) : Declaration → List Leaf
  | .leaf l => [l.propagate inherited]
  | .block ps inner => sourceLeaves (inherited ++ ps) inner

def sourceLeaves (inherited : List Property) : List Declaration → List Leaf
  | [] => []
  | d :: ds => d.sourceLeaves inherited ++ sourceLeaves inherited ds

end

mutual

theorem Declaration.sourceLeaves_perm (inherited : List Property) :
    (d : Declaration) → (d.sourceLeaves inherited).Perm
      ((leavesOf [d]).map (Leaf.propagate inherited) ++ d.flatten inherited)
  | .leaf l => .refl _
  | .block ps inner => by
    rw [Declaration.sourceLeaves, Declaration.flatten]
    exact sourceLeaves_perm (inherited ++ ps) inner

/-- Flattening puts the leaves of a block in front of those inside its blocks and changes nothing
else. -/
theorem sourceLeaves_perm (inherited : List Property) :
    (ds : List Declaration) → (sourceLeaves inherited ds).Perm
      ((leavesOf ds).map (Leaf.propagate inherited) ++ flattenBlocks inherited ds)
  | [] => .refl _
  | d :: ds => by
    have hd := Declaration.sourceLeaves_perm inherited d
    have hds := sourceLeaves_perm inherited ds
    have hleaves : leavesOf (d :: ds) = leavesOf [d] ++ leavesOf ds := by
      rw [leavesOf, leavesOf, leavesOf, ← List.filterMap_append, List.singleton_append]
    rw [sourceLeaves, flattenBlocks, hleaves, List.map_append]
    refine (hd.append hds).trans ?_
    rw [List.append_assoc, List.append_assoc]
    refine .append_left _ ?_
    rw [← List.append_assoc, ← List.append_assoc]
    exact List.perm_append_comm.append_right _

end

theorem Block.sourceLeaves_perm_flat (ds : List Declaration) :
    (sourceLeaves [] ds).Perm (Block.flat ⟨[], ds⟩) := by
  rw [flat_eq_flatten, flatten, toDeclaration, Declaration.flatten]
  exact sourceLeaves_perm [] ds

/-! ### The flattened block -/

/-- The loop ends, in as many rounds as there are blocks, with the recursive flattening: each leaf
once, in the order of places, with the properties of the blocks around it in front of its own. -/
theorem Block.normalize_eq_flatten (b : Block) :
    b.normalize = ⟨[], (b.flatten []).map .leaf⟩ ∧
      (∀ (c : Block) (inherited : List Property), c.flatten inherited =
        (leavesOf c.inner).map (Leaf.propagate (inherited ++ c.properties)) ++
          (blocksOf c.inner).flatMap (Block.flatten (inherited ++ c.properties))) ∧
      Flattening.step^[b.blockCount] (.start b) = ⟨[], b.flatten []⟩ ∧
      (∀ n < b.blockCount, (Flattening.step^[n] (.start b)).pending ≠ []) ∧
      (∀ path, path ∈ b.places ↔ (b.leaf? path).isSome = true) ∧
      b.places.Nodup ∧ b.places.Pairwise Precedes ∧
      List.Forall₂ (fun path d => ∃ l, b.leaf? path = some l ∧
        d = Declaration.leaf (l.propagate (b.scope path))) b.places b.normalize.inner := by
  have hnormalize : b.normalize = ⟨[], (b.flatten []).map .leaf⟩ := by
    rw [normalize, flat_eq_flatten]
  refine ⟨hnormalize, fun c inherited => flatten_eq inherited c, Flattening.iterate_blockCount b,
    fun n hn => Flattening.pending_iterate_ne_nil b hn, fun path => mem_places, b.nodup_places,
    Declaration.pairwise_places b.toDeclaration, ?_⟩
  rw [hnormalize]
  refine List.forall₂_map_right_iff.2 ((b.yields_flatten []).imp ?_)
  rintro path l ⟨m, hm, rfl⟩
  exact ⟨m, hm, rfl⟩

end ClassLang
