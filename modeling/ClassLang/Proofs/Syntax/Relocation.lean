import ClassLang.Proofs.Syntax.DerivationTree

/-!
# Trees elsewhere

A tree of a text stands in another text as the same tree with other ranges. `Relocation` says where
ranges go, starts and stops apart, and closing the node of a rule does not depend on where its
pieces stand. Behind more text positions are shifted (`Relocation.shift`): offsets and lines grow,
columns stay, and a shifted position is advanced like the one before it was shifted.
-/

namespace ClassLang

/-- Where the starts and the stops of ranges go. -/
structure Relocation where
  start : Position → Position
  stop : Position → Position

def Range.relocate (m : Relocation) (r : Range) : Range := ⟨m.start r.start, m.stop r.stop⟩

def Token.relocate (m : Relocation) (t : Token) : Token :=
  ⟨t.terminal, t.text, t.range.relocate m⟩

theorem Token.terminal_relocate (m : Relocation) (t : Token) :
    (t.relocate m).terminal = t.terminal := rfl

namespace Tree

mutual

def relocate (m : Relocation) : Tree → Tree
  | node rule range ts => node rule (range.map (Range.relocate m)) (relocateAll m ts)
  | token kind text range => token kind text (range.relocate m)
  | absent => absent

def relocateAll (m : Relocation) : List Tree → List Tree
  | [] => []
  | t :: ts => t.relocate m :: relocateAll m ts

end

variable (m : Relocation)

theorem relocateAll_eq_map (ts : List Tree) : relocateAll m ts = ts.map (relocate m) := by
  induction ts with
  | nil => rfl
  | cons t ts ih => rw [relocateAll, ih, List.map_cons]

theorem relocate_node (rule : Label Rule) (range : Option Range) (ts : List Tree) :
    (node rule range ts).relocate m =
      node rule (range.map (Range.relocate m)) (ts.map (relocate m)) := by
  rw [relocate, relocateAll_eq_map]

theorem relocate_tree (t : Token) : t.tree.relocate m = (t.relocate m).tree := by
  rw [Token.tree, relocate]
  rfl

theorem range?_relocate (t : Tree) : (t.relocate m).range? = t.range?.map (Range.relocate m) := by
  cases t <;> rw [relocate] <;> rfl

theorem isPunctuation_relocate (t : Tree) : (t.relocate m).isPunctuation = t.isPunctuation := by
  cases t with
  | token kind text range => cases kind <;> rw [relocate] <;> rfl
  | _ => simp only [relocate, isPunctuation]

mutual

theorem relocate_id : (t : Tree) → t.relocate ⟨id, id⟩ = t
  | node rule range ts => by
    have hrange : range.map (Range.relocate ⟨id, id⟩) = range := by cases range <;> rfl
    rw [relocate, relocateAll_id ts, hrange]
  | token kind text range => rfl
  | absent => rfl

theorem relocateAll_id : (ts : List Tree) → relocateAll ⟨id, id⟩ ts = ts
  | [] => rfl
  | t :: ts => by rw [relocateAll, relocate_id t, relocateAll_id ts]

end

/-! ### Ranges of several pieces -/

theorem findSome?_relocate (ps : List Tree) :
    (ps.map (relocate m)).findSome? range? = (ps.findSome? range?).map (Range.relocate m) := by
  induction ps with
  | nil => rfl
  | cons p ps ih =>
    rw [List.map_cons, List.findSome?_cons, List.findSome?_cons, range?_relocate]
    cases p.range? with
    | none => exact ih
    | some r => rfl

theorem cover_relocate (ps : List Tree) :
    cover (ps.map (relocate m)) = (cover ps).map (Range.relocate m) := by
  rw [cover, cover, ← List.map_reverse, findSome?_relocate, findSome?_relocate]
  cases ps.findSome? range? with
  | none => rfl
  | some r => cases ps.reverse.findSome? range? <;> rfl

theorem close_relocate (r : Rule) (ps : List Tree) :
    (close r ps).relocate m = close r (ps.map (relocate m)) := by
  rw [close, relocate, relocateAll_eq_map, close, cover_relocate, List.filter_map]
  simp only [Function.comp_def, isPunctuation_relocate]

end Tree

/-- The range from one to another, either of which may be missing. -/
def Range.join : Option Range → Option Range → Option Range
  | none, r => r
  | r, none => r
  | some r, some s => some ⟨r.start, s.stop⟩

namespace Tree

theorem findSome?_reverse_eq_none (ps : List Tree) :
    ps.reverse.findSome? range? = none ↔ ps.findSome? range? = none := by
  simp only [List.findSome?_eq_none_iff, List.mem_reverse]

theorem cover_append_join (ps qs : List Tree) :
    cover (ps ++ qs) = Range.join (cover ps) (cover qs) := by
  have hp := findSome?_reverse_eq_none ps
  have hq := findSome?_reverse_eq_none qs
  rw [cover, List.findSome?_append, List.reverse_append, List.findSome?_append, cover, cover]
  cases hps : ps.findSome? range? with
  | none =>
    rw [hp.2 hps, Option.or_none, Option.none_or]
    rfl
  | some r =>
    cases hpr : ps.reverse.findSome? range? with
    | none =>
      rw [hp.1 hpr] at hps
      cases hps
    | some r' =>
      cases hqs : qs.findSome? range? with
      | none =>
        rw [hq.2 hqs]
        rfl
      | some s =>
        cases hqr : qs.reverse.findSome? range? with
        | none =>
          rw [hq.1 hqr] at hqs
          cases hqs
        | some s' => rfl

/-- A node with more pieces in front. -/
def behind (front : List Tree) : Tree → Tree
  | node rule range ts =>
    node rule (Range.join (cover front) range) ((front.filter fun t => !t.isPunctuation) ++ ts)
  | t => t

theorem behind_close (front : List Tree) (r : Rule) (ps : List Tree) :
    (close r ps).behind front = close r (front ++ ps) := by
  rw [close, behind, close, cover_append_join, List.filter_append]

end Tree

/-! ### Recast trees -/

theorem Tree.cover_map {g : Tree → Tree} (hr : ∀ t, (g t).range? = t.range?) (ps : List Tree) :
    cover (ps.map g) = cover ps := by
  have hrange : range? ∘ g = range? := funext hr
  rw [cover, cover, ← List.map_reverse, List.findSome?_map, List.findSome?_map, hrange]

/-- Closing the node of a rule looks at nothing but ranges and at what is punctuation. -/
theorem Tree.close_map {g : Tree → Tree} (hr : ∀ t, (g t).range? = t.range?)
    (hp : ∀ t, (g t).isPunctuation = t.isPunctuation) (r : Rule) (ps : List Tree) :
    close r (ps.map g) =
      node (.known r) (cover ps) ((ps.filter fun t => !t.isPunctuation).map g) := by
  rw [close, cover_map hr, List.filter_map]
  simp only [Function.comp_def, hp]

/-- A change of tokens and trees that rules do not see. -/
structure Recast where
  token : Token → Token
  tree : Tree → Tree
  terminal_token (t : Token) : (token t).terminal = t.terminal
  tree_absent : tree .absent = .absent
  tree_token (t : Token) : tree t.tree = (token t).tree
  tree_close (r : Rule) (ps : List Tree) : tree (Tree.close r ps) = Tree.close r (ps.map tree)

def Relocation.recast (m : Relocation) : Recast where
  token := Token.relocate m
  tree := Tree.relocate m
  terminal_token := Token.terminal_relocate m
  tree_absent := rfl
  tree_token := Tree.relocate_tree m
  tree_close := Tree.close_relocate m

/-! ### Behind more text -/

def Position.shift (offset lines : Nat) (p : Position) : Position :=
  ⟨p.offset + offset, p.line + lines, p.column⟩

theorem Position.advance_shift (offset lines : Nat) (p : Position) (cs : List Char) :
    (p.shift offset lines).advance cs = (p.advance cs).shift offset lines := by
  induction cs generalizing p with
  | nil => rfl
  | cons c cs ih =>
    have hnext : (p.shift offset lines).next c = (p.next c).shift offset lines := by
      unfold next shift
      split
      · simp only [Nat.add_right_comm]
      · simp only [Nat.add_right_comm]
    rw [advance_cons, hnext, ih, advance_cons]

/-- The start of a line is the start of a text, shifted. -/
theorem Position.advance_newline (cs : List Char) :
    start.advance (cs ++ ['\n']) = start.shift (cs.length + 1) (cs.count '\n' + 1) := by
  have hoffset := advance_offset start cs
  have hline := advance_line start cs
  rw [advance_append]
  generalize start.advance cs = p at hoffset hline
  simp only [advance, List.foldl_cons, List.foldl_nil, next, if_true, shift, hoffset, hline]
  simp only [start, Nat.zero_add, Nat.add_comm 1, Nat.add_assoc]

def Relocation.shift (offset lines : Nat) : Relocation :=
  ⟨Position.shift offset lines, Position.shift offset lines⟩

/-- Where ranges go on a new line behind a text. -/
def Relocation.behind (text : List Char) : Relocation :=
  .shift (text.length + 1) (text.count '\n' + 1)

end ClassLang
