import ClassLang.Proofs.Flattening

/-!
# Lookup in nested scopes

A leaf that is flattened carries the properties of all blocks around it in one list, which is looked
through from the end. This is lookup in nested scopes: the leaf's own properties come first, then
those of the blocks around it from the innermost one outward, and within one scope the last property
that fits decides (`Property.find?_reverse_flatten`).
-/

namespace ClassLang

/-! ### Scopes -/

namespace Property

variable {name : String} {mark : Option Bool} {p : Property} {ps : List Property}
  {scopes : List (List Property)}

/-- Whether a property is the last one of a list that fits. -/
def IsLastFit (name : String) (mark : Option Bool) (ps : List Property) (p : Property) : Prop :=
  ∃ front back, ps = front ++ p :: back ∧ fits name mark p = true ∧
    ∀ q ∈ back, fits name mark q = false

/-- Whether nothing in a list fits. -/
def Misses (name : String) (mark : Option Bool) (ps : List Property) : Prop :=
  ∀ q ∈ ps, fits name mark q = false

/-- What a name means in scopes inside one another, the innermost one first. -/
inductive Resolves (name : String) (mark : Option Bool) : List (List Property) → Property → Prop
  | here {ps : List Property} {outer : List (List Property)} {p : Property}
      (h : IsLastFit name mark ps p) : Resolves name mark (ps :: outer) p
  | outward {ps : List Property} {outer : List (List Property)} {p : Property}
      (hm : Misses name mark ps) (h : Resolves name mark outer p) :
      Resolves name mark (ps :: outer) p

theorem find?_eq_some : find? ps name mark = some p ↔ IsLastFit name mark ps p := by
  rw [find?, List.find?_eq_some_iff_append]
  constructor
  · rintro ⟨hp, back, front, heq, hback⟩
    refine ⟨front.reverse, back.reverse, ?_, hp, ?_⟩
    · rw [← List.reverse_reverse ps, heq]
      simp only [List.reverse_append, List.reverse_cons, List.append_assoc, List.singleton_append]
    · intro q hq
      have hmiss := hback q (List.mem_reverse.1 hq)
      rwa [Bool.not_eq_true'] at hmiss
  · rintro ⟨front, back, rfl, hp, hback⟩
    refine ⟨hp, back.reverse, front.reverse, ?_, ?_⟩
    · simp only [List.reverse_append, List.reverse_cons, List.append_assoc, List.singleton_append]
    · intro q hq
      rw [hback q (List.mem_reverse.1 hq)]
      rfl

theorem find?_eq_none : find? ps name mark = none ↔ Misses name mark ps := by
  rw [find?, List.find?_eq_none]
  constructor
  · intro h q hq
    exact Bool.eq_false_iff.2 (h q (List.mem_reverse.2 hq))
  · intro h q hq
    exact Bool.eq_false_iff.1 (h q (List.mem_reverse.1 hq))

theorem find?_reverse_flatten :
    find? scopes.reverse.flatten name mark = some p ↔ Resolves name mark scopes p := by
  induction scopes with
  | nil =>
    constructor
    · exact nofun
    · exact nofun
  | cons ps outer ih =>
    rw [List.reverse_cons, List.flatten_append, List.flatten_singleton, find?_append,
      Option.or_eq_some_iff, find?_eq_some, find?_eq_none, ih]
    constructor
    · rintro (h | ⟨hm, h⟩)
      · exact .here h
      · exact .outward hm h
    · intro h
      cases h with
      | here h => exact Or.inl h
      | outward hm h => exact Or.inr ⟨hm, h⟩

theorem find?_reverse_flatten_none :
    find? scopes.reverse.flatten name mark = none ↔ ∀ ps ∈ scopes, Misses name mark ps := by
  induction scopes with
  | nil =>
    constructor
    · exact fun _ => nofun
    · exact fun _ => rfl
  | cons ps outer ih =>
    rw [List.reverse_cons, List.flatten_append, List.flatten_singleton, find?_append,
      Option.or_eq_none_iff, find?_eq_none, ih, List.forall_mem_cons]

end Property

/-! ### The blocks around a leaf -/

namespace Block

/-- The blocks around a place, from the whole block inward. -/
def around (b : Block) : List Nat → List Block
  | [] => [b]
  | i :: path =>
    match b.inner[i]? with
    | some (.block ps inner) => b :: around ⟨ps, inner⟩ path
    | _ => [b]

theorem scope_eq_flatten (b : Block) (path : List Nat) :
    b.scope path = ((b.around path).map Block.properties).flatten := by
  have halone : ([b].map Block.properties).flatten = b.properties := List.append_nil b.properties
  induction path generalizing b with
  | nil => exact halone.symm
  | cons i path ih =>
    cases h : b.inner[i]? with
    | none => simp only [scope, around, h, halone]
    | some d =>
      cases d with
      | leaf l => simp only [scope, around, h, halone]
      | block ps inner =>
        simp only [scope, around, h, List.map_cons, List.flatten_cons,
          ih ⟨ps, inner⟩ (List.append_nil ps)]

/-- The scopes of a leaf at a place, its own first and then those around it outward. -/
def scopes (b : Block) (path : List Nat) (l : Leaf) : List (List Property) :=
  l.properties :: ((b.around path).map Block.properties).reverse

/-- The leaf at a place as it is found in the flattened block. -/
theorem exists_flattened {b : Block} {path : List Nat} {l : Leaf} (h : b.leaf? path = some l) :
    ∃ k, b.normalize.inner[b.places.idxOf path]? = some (.leaf k) ∧
      k = l.propagate (b.scope path) := by
  have hmem : path ∈ b.places := mem_places.2 (by rw [h]; rfl)
  have hlt : b.places.idxOf path < b.places.length := List.idxOf_lt_length_of_mem hmem
  have hyields := b.yields_flatten []
  have hflat : b.places.idxOf path < (b.flatten []).length := hyields.length_eq ▸ hlt
  obtain ⟨m, hm, hk⟩ := hyields.get hlt hflat
  have hpath : b.places.get ⟨_, hlt⟩ = path := List.getElem_idxOf hlt
  rw [hpath] at hm hk
  obtain rfl := Option.some.inj (h.symm.trans hm)
  refine ⟨_, ?_, hk⟩
  show (b.flat.map Declaration.leaf)[b.places.idxOf path]? = _
  rw [flat_eq_flatten, List.getElem?_map, List.getElem?_eq_getElem hflat]
  rfl

/-- A property of a leaf is looked up in the flattened block as in scopes inside one another: the
last that fits in the leaf's own list, else the last that fits in the innermost block around it that
has one, and nothing exactly if no scope has one. -/
theorem find?_normalize {b : Block} {path : List Nat} {l : Leaf} (h : b.leaf? path = some l) :
    ∃ k, b.normalize.inner[b.places.idxOf path]? = some (.leaf k) ∧ k.name = l.name ∧
      ∀ name mark,
        (∀ p, Property.find? k.properties name mark = some p ↔
          Property.Resolves name mark (b.scopes path l) p) ∧
        (Property.find? k.properties name mark = none ↔
          ∀ ps ∈ b.scopes path l, Property.Misses name mark ps) ∧
        (Property.has k.properties name mark = true ↔
          ∃ p, Property.Resolves name mark (b.scopes path l) p) := by
  obtain ⟨k, hat, rfl⟩ := exists_flattened h
  have hproperties : (l.propagate (b.scope path)).properties =
      (b.scopes path l).reverse.flatten := by
    rw [Leaf.properties_propagate, scope_eq_flatten, scopes, List.reverse_cons,
      List.reverse_reverse, List.flatten_append, List.flatten_singleton]
  refine ⟨_, hat, Leaf.name_propagate _ l, ?_⟩
  intro name mark
  rw [hproperties]
  refine ⟨fun p => Property.find?_reverse_flatten, Property.find?_reverse_flatten_none, ?_⟩
  rw [Property.has, Option.isSome_iff_exists]
  exact exists_congr fun p => Property.find?_reverse_flatten

/-- A field inside two blocks, with one name in all scopes, twice in the middle one. -/
def shadowed : Block :=
  ⟨[⟨"A", some (.integer 1), false⟩, ⟨"B", none, false⟩],
    [.block [⟨"A", some (.integer 2), true⟩, ⟨"A", some (.integer 3), true⟩]
      [.leaf (.field ⟨"x", .primitive .integer, none, [⟨"A", none, false⟩], false⟩)]]⟩

theorem find?_normalize_shadowed :
    shadowed.leaf? [0, 0] =
        some (.field ⟨"x", .primitive .integer, none, [⟨"A", none, false⟩], false⟩) ∧
      ∃ k, shadowed.normalize.inner[0]? = some (.leaf k) ∧ k.name = "x" ∧
        Property.find? k.properties "A" none = some ⟨"A", none, false⟩ ∧
        Property.find? k.properties "A" (some true) = some ⟨"A", some (.integer 3), true⟩ ∧
        Property.has k.properties "B" (some false) = true ∧
        Property.find? k.properties "B" (some true) = none := by
  have hleaf : shadowed.leaf? [0, 0] =
      some (.field ⟨"x", .primitive .integer, none, [⟨"A", none, false⟩], false⟩) := rfl
  obtain ⟨k, hat, hname, hlookup⟩ := find?_normalize hleaf
  refine ⟨hleaf, k, hat, hname, ?_, ?_, ?_, ?_⟩
  · exact ((hlookup "A" none).1 _).2 (.here ⟨[], [], rfl, rfl, nofun⟩)
  · refine ((hlookup "A" (some true)).1 _).2 (.outward ?_ (.here ⟨[_], [], rfl, rfl, nofun⟩))
    exact List.forall_mem_singleton.2 rfl
  · refine (hlookup "B" (some false)).2.2.2 ⟨⟨"B", none, false⟩, .outward ?_ (.outward ?_ (.here
      ⟨[_], [], rfl, rfl, nofun⟩))⟩
    · exact List.forall_mem_singleton.2 rfl
    · exact List.forall_mem_cons.2 ⟨rfl, List.forall_mem_singleton.2 rfl⟩
  · refine (hlookup "B" (some true)).2.1.2 ?_
    unfold Property.Misses
    decide

end Block

end ClassLang
