import ClassLang.Proofs.Build.Concatenation
import ClassLang.Proofs.Syntax.Stop

/-!
# Positions are exact

Every position in a tree and in a report is where it says. A token is what stands at its range, each
token stops before the next one starts, and the node of a rule ranges from the start of the first
token that was read for it to the stop of the last, so that the ranges of its children lie inside it
one behind the other. What fails is reported with positions of tokens, hence with a range of the
text and with what stands there. Main statement: `positions_exact`.
-/

namespace ClassLang

open DerivationTree (extends_pieces)

variable {text : List Char}

/-! ### Exact positions -/

/-- Whether a position is one of a text, with the line and the column that it has there. -/
def Position.IsIn (text : List Char) (p : Position) : Prop :=
  p.offset ≤ text.length ∧ p = behind (text.take p.offset)

theorem Position.isIn_behind (front rest : List Char) : (behind front).IsIn (front ++ rest) := by
  have htake : (front ++ rest).take (behind front).offset = front := List.take_left
  rw [IsIn, htake]
  refine ⟨?_, rfl⟩
  rw [List.length_append]
  exact Nat.le_add_right _ _

/-- Whether a token is what stands at its range, which is not empty. -/
structure Token.IsAt (text : List Char) (t : Token) : Prop where
  slice : Build.slice text t.range = t.text.toList
  nonempty : t.range.start.offset < t.range.stop.offset
  start : t.range.start.IsIn text
  stop : t.range.stop.IsIn text

/-- Whether a token stops before another one starts. -/
def Token.Before (t u : Token) : Prop := t.range.stop.offset ≤ u.range.start.offset

namespace Spread

variable {p : Position} {ts : List Token} {rest : List Char}

theorem isAt {before : List Char} (h : Spread p ts rest) (hp : p = .behind before) :
    ∀ t ∈ ts, t.IsAt (before ++ rest) := by
  have hstands := h.standsIn (hp.trans (Position.start_advance before).symm)
  have hranges := h.ranges
  have hin : ∀ t ∈ ts,
      t.range.start.IsIn (before ++ rest) ∧ t.range.stop.IsIn (before ++ rest) := by
    clear hstands hranges
    induction h generalizing before with
    | nil => exact nofun
    | @cons p t ts gap w rest hg hr ht hm _ ih =>
      have hstart : t.range.start = .behind (before ++ gap) := by
        rw [hr, hp, ← Position.start_advance, ← Position.start_advance, Position.advance_append]
      have hstop : t.range.stop = .behind (before ++ gap ++ w) := by
        rw [hr, hp, ← Position.start_advance, ← Position.start_advance, Position.advance_append,
          Position.advance_append]
      have htext : before ++ (gap ++ (w ++ rest)) = before ++ gap ++ w ++ rest := by
        simp only [List.append_assoc]
      have hall := ih hstop
      rw [htext]
      refine List.forall_mem_cons.2 ⟨⟨?_, ?_⟩, hall⟩
      · rw [hstart, List.append_assoc]
        exact Position.isIn_behind _ _
      · rw [hstop]
        exact Position.isIn_behind _ _
  intro t ht
  exact ⟨(hstands t ht).slice, (hranges t ht).2, (hin t ht).1, (hin t ht).2⟩

theorem pairwise_before (h : Spread p ts rest) : ts.Pairwise Token.Before := by
  induction h with
  | nil => exact .nil
  | cons hg hr ht hm hrest ih => exact .cons (fun u hu => (hrest.ranges u hu).1) ih

end Spread

/-! ### Ranges of tokens -/

/-- The range from the start of the first token to the stop of the last. -/
def Range.across (ts : List Token) : Option Range :=
  match ts.head?, ts.getLast? with
  | some t, some u => some ⟨t.range.start, u.range.stop⟩
  | _, _ => none

namespace Range

variable {ts us : List Token} {t u : Token} {r s : Range}

theorem cover_eq_across {ps : List Tree} (h : Extends ps ts) : Tree.cover ps = across ts := by
  rw [across]
  cases ht : ts.head? with
  | none =>
    obtain rfl := List.head?_eq_none_iff.1 ht
    exact h.cover_nil
  | some t =>
    cases hu : ts.getLast? with
    | none =>
      obtain rfl := List.getLast?_eq_none_iff.1 hu
      cases ht
    | some u => exact h.cover ht hu

theorem across_eq_some (h : r ∈ across ts) :
    ∃ t u, ts.head? = some t ∧ ts.getLast? = some u ∧ r = ⟨t.range.start, u.range.stop⟩ := by
  rw [across] at h
  split at h
  · rename_i t u ht hu
    exact ⟨t, u, ht, hu, (Option.some.inj h).symm⟩
  · cases h

theorem head_start_le (hat : ∀ t ∈ ts, t.IsAt text) (hb : ts.Pairwise Token.Before)
    (hu : ts.head? = some u) (ht : t ∈ ts) : u.range.start.offset ≤ t.range.start.offset := by
  obtain ⟨rest, rfl⟩ := List.head?_eq_some_iff.1 hu
  rcases List.mem_cons.1 ht with rfl | ht
  · exact Nat.le_refl _
  · have hbefore : u.range.stop.offset ≤ t.range.start.offset := List.rel_of_pairwise_cons hb ht
    have hpos := (hat u List.mem_cons_self).nonempty
    omega

theorem stop_le_getLast (hat : ∀ t ∈ ts, t.IsAt text) (hb : ts.Pairwise Token.Before)
    (hu : ts.getLast? = some u) (ht : t ∈ ts) : t.range.stop.offset ≤ u.range.stop.offset := by
  obtain ⟨front, rfl⟩ := List.getLast?_eq_some_iff.1 hu
  rcases List.mem_append.1 ht with ht | ht
  · have hbefore : t.range.stop.offset ≤ u.range.start.offset :=
      (List.pairwise_append.1 hb).2.2 t ht u List.mem_cons_self
    have hpos := (hat u (List.mem_append_right _ List.mem_cons_self)).nonempty
    omega
  · obtain rfl := List.mem_singleton.1 ht
    exact Nat.le_refl _

theorem exists_across (hat : ∀ t ∈ ts, t.IsAt text) (hb : ts.Pairwise Token.Before)
    (hsub : us ⊆ ts) (hs : s ∈ across us) :
    ∃ r ∈ across ts, r.start.offset ≤ s.start.offset ∧ s.stop.offset ≤ r.stop.offset := by
  obtain ⟨t, u, ht, hu, rfl⟩ := across_eq_some hs
  have htmem : t ∈ ts := hsub (List.mem_of_head? ht)
  have humem : u ∈ ts := hsub (List.mem_of_getLast? hu)
  cases hfirst : ts.head? with
  | none =>
    obtain rfl := List.head?_eq_none_iff.1 hfirst
    cases htmem
  | some first =>
    cases hlast : ts.getLast? with
    | none =>
      obtain rfl := List.getLast?_eq_none_iff.1 hlast
      cases htmem
    | some last =>
      refine ⟨⟨first.range.start, last.range.stop⟩, ?_, head_start_le hat hb hfirst htmem,
        stop_le_getLast hat hb hlast humem⟩
      rw [across, hfirst, hlast]
      exact rfl

theorem isIn_of_across (hat : ∀ t ∈ ts, t.IsAt text) (h : r ∈ across ts) :
    r.start.IsIn text ∧ r.stop.IsIn text := by
  obtain ⟨t, u, ht, hu, rfl⟩ := across_eq_some h
  exact ⟨(hat t (List.mem_of_head? ht)).start, (hat u (List.mem_of_getLast? hu)).stop⟩

theorem stop_le_start (h : ∀ t ∈ ts, ∀ u ∈ us, t.Before u) (hr : r ∈ across ts)
    (hs : s ∈ across us) : r.stop.offset ≤ s.start.offset := by
  obtain ⟨-, t, -, ht, rfl⟩ := across_eq_some hr
  obtain ⟨u, -, hu, -, rfl⟩ := across_eq_some hs
  exact h t (List.mem_of_getLast? ht) u (List.mem_of_head? hu)

end Range

/-! ### Trees -/

namespace Tree

/-- Whether the range of one tree stops before that of another starts, if both have one. -/
def Before (t u : Tree) : Prop :=
  ∀ r ∈ t.range?, ∀ s ∈ u.range?, r.stop.offset ≤ s.start.offset

/-- Whether the range of a tree, if it has one, lies inside another range. -/
def Inside (range : Option Range) (t : Tree) : Prop :=
  ∀ s ∈ t.range?, ∃ r ∈ range, r.start.offset ≤ s.start.offset ∧ s.stop.offset ≤ r.stop.offset

/-- Whether all positions in a tree are exact, given the tokens that were read for it, punctuation
included. A token is what stands at its range. The pieces of a node derive from its rule, each is
exact for its part of the tokens, and the node has a range if there are tokens, from the first to
the last. Its children are the pieces without punctuation; they lie inside the node, one behind the
other. -/
inductive Placed (text : List Char) : Tree → List Token → Prop
  | absent : Placed text .absent []
  | token {t : Token} (h : t.IsAt text) : Placed text t.tree [t]
  | node {r : Rule} {ps : List Tree} {uss : List (List Token)} {children : List Tree}
      (hr : Derives r.phrase uss.flatten ps) (hps : List.Forall₂ (Placed text) ps uss)
      (hc : children = ps.filter fun t => !t.isPunctuation)
      (hin : ∀ range ∈ Range.across uss.flatten, range.start.IsIn text ∧ range.stop.IsIn text)
      (hinside : ∀ t ∈ children, t.Inside (Range.across uss.flatten))
      (hbefore : children.Pairwise Before) :
      Placed text (.node (.known r) (Range.across uss.flatten) children) uss.flatten

/-- A tree with the tokens that were read for it, of which it has its range. -/
def PlacedAcross (text : List Char) (t : Tree) (ts : List Token) : Prop :=
  t.Placed text ts ∧ t.range? = Range.across ts

/-- Trees that share tokens out among them. -/
def SharesOut (text : List Char) (ps : List Tree) (ts : List Token) : Prop :=
  ∃ uss : List (List Token), uss.flatten = ts ∧ List.Forall₂ (PlacedAcross text) ps uss

theorem SharesOut.append {ps qs : List Tree} {ts us : List Token} (h : SharesOut text ps ts)
    (h' : SharesOut text qs us) : SharesOut text (ps ++ qs) (ts ++ us) := by
  obtain ⟨uss, rfl, hps⟩ := h
  obtain ⟨vss, rfl, hqs⟩ := h'
  exact ⟨uss ++ vss, List.flatten_append, List.rel_append hps hqs⟩

theorem SharesOut.single {t : Tree} {ts : List Token} (h : PlacedAcross text t ts) :
    SharesOut text [t] ts := ⟨[ts], List.flatten_singleton, .cons h .nil⟩

theorem inside_of_placed {ps : List Tree} {uss : List (List Token)}
    (h : List.Forall₂ (PlacedAcross text) ps uss) {ts : List Token}
    (hat : ∀ t ∈ ts, t.IsAt text) (hb : ts.Pairwise Token.Before) (hsub : uss.flatten ⊆ ts) :
    ∀ t ∈ ps, t.Inside (Range.across ts) := by
  induction h with
  | nil => exact nofun
  | cons hp _ ih =>
    obtain ⟨hhead, htail⟩ := List.append_subset.1 hsub
    refine List.forall_mem_cons.2 ⟨?_, ih htail⟩
    intro s hs
    rw [hp.2] at hs
    exact Range.exists_across hat hb hhead hs

theorem pairwise_of_placed {ps : List Tree} {uss : List (List Token)}
    (h : List.Forall₂ (PlacedAcross text) ps uss) (hb : uss.flatten.Pairwise Token.Before) :
    ps.Pairwise Before := by
  induction h with
  | nil => exact .nil
  | @cons p us ps uss hp hps ih =>
    obtain ⟨-, hrest, hbetween⟩ := List.pairwise_append.1 hb
    refine .cons ?_ (ih hrest)
    intro q hq r hr s hs
    obtain ⟨n, hn, rfl⟩ := List.mem_iff_getElem.1 hq
    -- the pieces correspond to their tokens one by one
    have hlength : n < uss.length := hps.length_eq ▸ hn
    have hmem : uss[n] ∈ uss := List.getElem_mem hlength
    have hplaced : PlacedAcross text ps[n] uss[n] := hps.get hn hlength
    rw [hp.2] at hr
    rw [hplaced.2] at hs
    refine Range.stop_le_start (fun t ht u hu => ?_) hr hs
    exact hbetween t ht u (List.mem_flatten_of_mem hmem hu)

end Tree

namespace DerivationTree

/-- The pieces that a derivation leaves share its tokens out. -/
theorem sharesOut {p : Phrase} (d : DerivationTree p) (hat : ∀ t ∈ d.tokens, t.IsAt text)
    (hb : d.tokens.Pairwise Token.Before) : Tree.SharesOut text d.pieces d.tokens := by
  induction d with
  | terminal t h => exact .single ⟨.token (hat t List.mem_cons_self), rfl⟩
  | @rule r d ih =>
    -- the children lose the punctuation, but the range is that of all the tokens of the rule
    obtain ⟨uss, hflat, hps⟩ := ih hat hb
    have hcover : Tree.cover d.pieces = Range.across uss.flatten := by
      rw [hflat]
      exact Range.cover_eq_across d.extends_pieces
    have hderives : Derives r.phrase uss.flatten d.pieces := by
      rw [hflat]
      exact d.derives
    rw [tokens, ← hflat] at hat hb ⊢
    have hinside := Tree.inside_of_placed hps hat hb (List.Subset.refl _)
    refine .single ⟨?_, hcover⟩
    rw [Tree.close, hcover]
    refine .node hderives (hps.imp fun _ _ h => h.1) rfl
      (fun range hr => Range.isIn_of_across hat hr) ?_ ?_
    · exact fun t ht => hinside t (List.mem_filter.1 ht).1
    · exact (Tree.pairwise_of_placed hps hb).filter _
  | type d ih => exact ih hat hb
  | seq d e ihd ihe =>
    obtain ⟨hatd, hate⟩ := List.forall_mem_append.1 hat
    obtain ⟨hbd, hbe, -⟩ := List.pairwise_append.1 hb
    exact (ihd hatd hbd).append (ihe hate hbe)
  | left d ih => exact ih hat hb
  | right d ih => exact ih hat hb
  | absent => exact .single ⟨.absent, rfl⟩
  | present d ih => exact ih hat hb
  | none => exact ⟨[], rfl, .nil⟩
  | more d e ihd ihe =>
    obtain ⟨hatd, hate⟩ := List.forall_mem_append.1 hat
    obtain ⟨hbd, hbe, -⟩ := List.pairwise_append.1 hb
    exact (ihd hatd hbd).append (ihe hate hbe)

end DerivationTree

/-! ### The tokens of a tree -/

namespace Tree

mutual

/-- The tokens of a tree from left to right, each with its range. -/
def leaves : Tree → List (String × Range)
  | node _ _ ts => leavesAll ts
  | token _ text range => [(text, range)]
  | absent => []

def leavesAll : List Tree → List (String × Range)
  | [] => []
  | t :: ts => leaves t ++ leavesAll ts

end

theorem leavesAll_singleton (t : Tree) : leavesAll [t] = t.leaves := by
  rw [leavesAll, leavesAll, List.append_nil]

mutual

theorem leaves_eq_gather : (t : Tree) → t.leaves = t.gather fun _ text range => [(text, range)]
  | node _ _ ts => by rw [leaves, gather, leavesAll_eq_gatherAll ts]
  | token _ _ _ => rfl
  | absent => rfl

theorem leavesAll_eq_gatherAll : (ts : List Tree) →
    leavesAll ts = gatherAll (fun _ text range => [(text, range)]) ts
  | [] => rfl
  | t :: ts => by rw [leavesAll, gatherAll, leaves_eq_gather t, leavesAll_eq_gatherAll ts]

end

end Tree

/-- What a token shows of itself in a tree. -/
def Token.leaf (t : Token) : String × Range := (t.text, t.range)

/-- The tokens in the tree of a derivation are its tokens but for some punctuation. -/
theorem DerivationTree.leaves_sublist {p : Phrase} (d : DerivationTree p) :
    (Tree.leavesAll d.pieces).Sublist (d.tokens.map Token.leaf) := by
  rw [Tree.leavesAll_eq_gatherAll, List.map_eq_flatMap]
  exact d.gather_sublist _

/-! ### Reports -/

/-- Whether a span is a range of a text, with what stands there and with the lines and columns of
its ends. -/
def Span.IsExact (text : List Char) (s : Span) : Prop :=
  ∃ i j : Nat, i ≤ text.length ∧ j ≤ text.length ∧
    s.start = i ∧ s.stop = j ∧ s.fragment.toList = (text.drop i).take (j - i) ∧
    s.line = (Position.behind (text.take i)).line ∧
    s.column = (Position.behind (text.take i)).column ∧
    s.endLine = (Position.behind (text.take j)).line ∧
    s.endColumn = (Position.behind (text.take j)).column

theorem Span.isExact_ofRange {r : Range} (hstart : r.start.IsIn text) (hstop : r.stop.IsIn text) :
    (Span.ofRange r (String.ofList (Build.slice text r))).IsExact text := by
  obtain ⟨hfrom, hstart⟩ := hstart
  obtain ⟨hto, hstop⟩ := hstop
  refine ⟨r.start.offset, r.stop.offset, hfrom, hto, rfl, rfl, ?_, ?_, ?_, ?_, ?_⟩
  · rw [Span.ofRange, String.toList_ofList, Build.slice]
  · rw [← hstart]
    exact rfl
  · rw [← hstart]
    exact rfl
  · rw [← hstop]
    exact rfl
  · rw [← hstop]
    exact rfl

/-- The derivation of a text that is read, with tokens where they say. -/
theorem exists_derivation {r : StartRule} {tree : Tree} (h : r.read text = .ok tree) :
    ∃ d : DerivationTree r.phrase, d.pieces = [tree] ∧ Spread .start d.tokens text ∧
      ∀ t ∈ d.tokens, t.IsAt text := by
  obtain ⟨ts, hspread, hderives⟩ := derives_of_read h
  obtain ⟨d, rfl, hpieces⟩ := hderives.exists_derivationTree
  have hstart : Position.start = Position.behind [] := rfl
  exact ⟨d, hpieces, hspread, hspread.isAt hstart⟩

theorem isIn_of_failing {r : StartRule} {tree : Tree} (h : r.read text = .ok tree) {c : Failing}
    (hc : c ∈ tree.failing) : c.range.start.IsIn text ∧ c.range.stop.IsIn text := by
  obtain ⟨d, hpieces, -, hat⟩ := exists_derivation h
  -- a fault starts where a token does, and the stops of the faults are stops of tokens too
  have hamong := d.among_failing
  rw [kept_of_pieces d hpieces, Tree.failingAll_singleton] at hamong
  obtain ⟨t, ht, hstart⟩ := hamong.1 c hc
  have hmem := hamong.2.subset (List.mem_map_of_mem hc)
  obtain ⟨u, hu, hstop⟩ := List.mem_map.1 hmem
  rw [hstart, ← hstop]
  exact ⟨(hat t ht).start, (hat u hu).stop⟩

/-- A failure is a rejection, or that of a construct of the tree that is read. -/
theorem parseRule_error_cases {r : StartRule} {f : Failure} (h : parseRule r text = .error f) :
    (∃ cause, f = .rejected text cause) ∨
      ∃ tree c, r.read text = .ok tree ∧ c ∈ tree.failing ∧ f = c.failure text := by
  cases hread : r.read text with
  | error cause =>
    rw [parseRule_of_error hread] at h
    exact Or.inl ⟨cause, (Except.error.inj h).symm⟩
  | ok tree =>
    obtain ⟨hbuilds, hfails⟩ := (settles_of_read hread).1.build
    rw [parseRule_of_read hread] at h
    cases hfailing : tree.failing with
    | nil =>
      obtain ⟨p, hp⟩ := hbuilds hfailing
      rw [hp] at h
      cases h
    | cons c cs =>
      rw [hfails c cs hfailing] at h
      exact Or.inr ⟨tree, c, rfl, hfailing ▸ List.mem_cons_self, (Except.error.inj h).symm⟩

/-- Every position is exact. In the tree of a text the tokens, in the order of the tree, are what
stands at their ranges and stand one behind the other; and the tree is exact for the tokens of the
text, node by node. A fault in a value or a field is reported with the range, the lines and the
columns of a stretch of the text, and with that stretch. -/
theorem positions_exact (r : StartRule) (text : List Char) :
    (∀ tree, tokenize r text = .ok tree →
      (∀ leaf ∈ tree.leaves, Build.slice text leaf.2 = leaf.1.toList ∧
        leaf.2.start.offset < leaf.2.stop.offset ∧ leaf.2.start.IsIn text ∧
        leaf.2.stop.IsIn text) ∧
      (tree.leaves.Pairwise fun a b => a.2.stop.offset ≤ b.2.start.offset) ∧
      ∃ ts, Spread .start ts text ∧ Derives r.phrase ts [tree] ∧ tree.Placed text ts) ∧
    ∀ f d, parseRule r text = .error f ∨ parse text = .error f → f.diagnostic? = some d →
      d.stage = .value ∨ d.stage = .field → ∃ s, d.place = .span s ∧ s.IsExact text := by
  constructor
  · intro tree htree
    obtain ⟨d, hpieces, hspread, hat⟩ := exists_derivation (read_of_tokenize htree)
    have hbefore := hspread.pairwise_before
    have hsub := d.leaves_sublist
    rw [hpieces, Tree.leavesAll_singleton] at hsub
    refine ⟨?_, ?_, d.tokens, hspread, hpieces ▸ d.derives, ?_⟩
    · intro leaf hleaf
      obtain ⟨t, ht, rfl⟩ := List.mem_map.1 (hsub.subset hleaf)
      obtain ⟨hslice, hpos, hstart, hstop⟩ := hat t ht
      exact ⟨hslice, hpos, hstart, hstop⟩
    · exact List.Pairwise.sublist hsub (List.pairwise_map.2 hbefore)
    · obtain ⟨uss, hflat, hplaced⟩ := d.sharesOut hat hbefore
      rw [hpieces] at hplaced
      obtain _ | ⟨htree, _ | _⟩ := hplaced
      rw [List.flatten_singleton] at hflat
      exact hflat ▸ htree.1
  · intro f d hf hd hstage
    have hcases : (∃ cause, f = .rejected text cause) ∨
        ∃ r tree c, StartRule.read r text = .ok tree ∧ c ∈ tree.failing ∧ f = c.failure text := by
      rcases hf with hf | hf
      · exact (parseRule_error_cases hf).imp_right fun hc => ⟨r, hc⟩
      · rcases parse_error_cases hf with ⟨cause, -, he⟩ | ⟨tree, c, cs, hread, hfailing, he⟩
        · exact Or.inl ⟨cause, he⟩
        · exact Or.inr ⟨.unit, tree, c, hread, hfailing ▸ List.mem_cons_self, he⟩
    rcases hcases with ⟨cause, rfl⟩ | ⟨r, tree, c, hread, hc, rfl⟩
    · obtain rfl := Option.some.inj hd
      rcases hstage with hstage | hstage <;> cases hstage
    · obtain rfl := Option.some.inj hd
      obtain ⟨hstart, hstop⟩ := isIn_of_failing hread hc
      exact ⟨_, rfl, Span.isExact_ofRange hstart hstop⟩

/-- The report of why a text is refused as a rule. -/
def StartRule.report? (r : StartRule) (text : List Char) : Option Diagnostic :=
  match parseRule r text with
  | .error f => f.diagnostic?
  | .ok _ => none

/-- A field that is written over several lines, with a value that is no byte. -/
def scatteredField : List Char := "/* \n */ Matrix\n<int> x // y\n = 'ab';".toList

theorem positions_exact_scatteredField :
    ∃ tree, tokenize .fieldDecl scatteredField = .ok tree ∧ tree.leaves.length = 4 ∧
      (∃ ts, Spread .start ts scatteredField ∧ tree.Placed scatteredField ts) ∧
      ∃ f d s, parseRule .fieldDecl scatteredField = .error f ∧ f.diagnostic? = some d ∧
        d.place = .span s ∧ s.fragment = "'ab'" ∧ s.line = 4 ∧ s.IsExact scatteredField := by
  have hleaves : (tokenize .fieldDecl scatteredField).toOption.map
      (fun tree => tree.leaves.length) = some 4 := by decide +kernel
  have hfails : (parseRule .fieldDecl scatteredField).toOption.isSome = false := by decide +kernel
  have hreport : (StartRule.fieldDecl.report? scatteredField).map (fun d =>
      (d.stage, d.place.span?.map fun s => (s.fragment, s.line))) =
      some (.value, some ("'ab'", 4)) := by decide +kernel
  obtain ⟨htrees, hreports⟩ := positions_exact .fieldDecl scatteredField
  obtain ⟨tree, htree, hlength⟩ := exists_ok_of_map hleaves
  obtain ⟨-, -, ts, hspread, -, hplaced⟩ := htrees tree htree
  obtain ⟨f, hparse⟩ := exists_error_of_isSome hfails
  obtain ⟨d, hd, hshown⟩ := Option.map_eq_some_iff.1 hreport
  rw [StartRule.report?, hparse] at hd
  obtain ⟨hstage, hspan⟩ := Prod.mk.inj hshown
  obtain ⟨s, hplace, hexact⟩ := hreports f d (Or.inl hparse) hd (Or.inl hstage)
  rw [hplace] at hspan
  obtain ⟨hfragment, hline⟩ := Prod.mk.inj (Option.some.inj hspan)
  exact ⟨tree, htree, hlength, ⟨ts, hspread, hplaced⟩, f, d, s, hparse, hd, hplace, hfragment,
    hline, hexact⟩

end ClassLang
