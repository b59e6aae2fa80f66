import ClassLang.Proofs.Build.Agreement
import ClassLang.Proofs.Build.WellFormed

/-!
# Types read back from their texts

The text of a type names its layers in the order in which a reader meets them, but it does not say
where one pointer ends and the next one begins. Stars are read in pairs, from the innermost one on,
so of a run of stars only the last can be left alone (`DataType.regroup`). A type without such runs
is written as words that touch one another and are still told apart, and these words derive the type
(`DataType.exists_written`). Types of any height are read, and those with no more layers than calls
can be nested have a text. Main statement: the text of a type is read back to the type with its
stars regrouped, which is the type itself exactly if it is grouped that way.
-/

namespace ClassLang

open Terminal
open ClassLang.Part (ofType)

/-! ### Runs of stars -/

namespace DataType

/-- A type and the types below its layers, from the outside in. -/
def layers : DataType → List DataType
  | .primitive p => [.primitive p]
  | .named name => [.named name]
  | .array t => .array t :: t.layers
  | .matrix t => .matrix t :: t.layers
  | .pointer d t => .pointer d t :: t.layers
  | .reference t => .reference t :: t.layers

/-- Whether no pointer directly wraps a pointer of depth one. -/
def Grouped (t : DataType) : Prop := ∀ d u, DataType.pointer d (.pointer .one u) ∉ t.layers

/-- Whether the outermost layer is a pointer of depth one. -/
def isSingle : DataType → Bool
  | .pointer .one _ => true
  | _ => false

/-- The type with one more star behind its text. -/
def addStar : DataType → DataType
  | .pointer .one t => .pointer .two t
  | t => .pointer .one t

/-- The type with its stars in pairs, from the innermost one on. -/
def regroup : DataType → DataType
  | .primitive p => .primitive p
  | .named name => .named name
  | .array t => .array t.regroup
  | .matrix t => .matrix t.regroup
  | .pointer .one t => t.regroup.addStar
  | .pointer .two t => t.regroup.addStar.addStar
  | .reference t => .reference t.regroup

theorem eq_of_isSingle {t : DataType} (h : t.isSingle = true) : ∃ u, t = .pointer .one u := by
  match t with
  | .pointer .one u => exact ⟨u, rfl⟩

theorem addStar_of_not_isSingle {t : DataType} (h : t.isSingle = false) :
    t.addStar = .pointer .one t := by
  match t with
  | .primitive _ => rfl
  | .named _ => rfl
  | .array _ => rfl
  | .matrix _ => rfl
  | .pointer .two _ => rfl
  | .reference _ => rfl

theorem Grouped.inner {t u : DataType} (h : t.Grouped) (hu : t.inner? = some u) : u.Grouped := by
  intro d v hv
  refine h d v ?_
  cases t <;> simp only [inner?, Option.some.injEq, reduceCtorEq] at hu <;> subst hu <;>
    exact List.mem_cons_of_mem _ hv

theorem Grouped.not_isSingle {d : PointerDepth} {t : DataType} (h : (pointer d t).Grouped) :
    t.isSingle = false := by
  cases hs : t.isSingle with
  | false => rfl
  | true =>
    obtain ⟨u, rfl⟩ := eq_of_isSingle hs
    exact absurd List.mem_cons_self (h d u)

theorem Grouped.pointer {d : PointerDepth} {t : DataType} (h : t.Grouped)
    (hs : t.isSingle = false) : (pointer d t).Grouped := by
  intro e u hu
  rcases List.mem_cons.1 hu with heq | hu
  · obtain ⟨-, rfl⟩ := DataType.pointer.inj heq
    cases hs
  · exact h e u hu

theorem Grouped.addStar {t : DataType} (h : t.Grouped) : t.addStar.Grouped := by
  cases hs : t.isSingle with
  | false =>
    rw [addStar_of_not_isSingle hs]
    exact h.pointer hs
  | true =>
    obtain ⟨u, rfl⟩ := eq_of_isSingle hs
    exact (h.inner rfl).pointer h.not_isSingle

theorem grouped_regroup (t : DataType) : t.regroup.Grouped := by
  induction t with
  | primitive p => exact fun d u hu => nomatch List.mem_singleton.1 hu
  | named name => exact fun d u hu => nomatch List.mem_singleton.1 hu
  | array t ih => exact fun d u hu => ih d u ((List.mem_cons.1 hu).resolve_left nofun)
  | matrix t ih => exact fun d u hu => ih d u ((List.mem_cons.1 hu).resolve_left nofun)
  | reference t ih => exact fun d u hu => ih d u ((List.mem_cons.1 hu).resolve_left nofun)
  | pointer d t ih =>
    cases d with
    | one => exact ih.addStar
    | two => exact ih.addStar.addStar

theorem regroup_of_grouped {t : DataType} (h : t.Grouped) : t.regroup = t := by
  induction t with
  | primitive p => rfl
  | named name => rfl
  | array t ih => rw [regroup, ih (h.inner rfl)]
  | matrix t ih => rw [regroup, ih (h.inner rfl)]
  | reference t ih => rw [regroup, ih (h.inner rfl)]
  | pointer d t ih =>
    have hstar := addStar_of_not_isSingle h.not_isSingle
    cases d with
    | one => rw [regroup, ih (h.inner rfl), hstar]
    | two =>
      rw [regroup, ih (h.inner rfl), hstar]
      rfl

theorem regroup_eq_self_iff {t : DataType} : t.regroup = t ↔ t.Grouped :=
  ⟨fun h => h ▸ grouped_regroup t, regroup_of_grouped⟩

/-- Two pointers of depth one are one pointer of depth two when their stars touch. -/
example : (DataType.pointer .one (.pointer .one (.named "A"))).regroup =
    .pointer .two (.named "A") := rfl

theorem text_addStar (t : DataType) : t.addStar.text = t.text ++ "*" := by
  cases hs : t.isSingle with
  | false =>
    rw [addStar_of_not_isSingle hs]
    rfl
  | true =>
    obtain ⟨u, rfl⟩ := eq_of_isSingle hs
    rw [addStar, text, text, String.append_assoc]
    rfl

theorem text_regroup (t : DataType) : t.regroup.text = t.text := by
  induction t with
  | primitive p => rfl
  | named name => rfl
  | array t ih => rw [regroup, text, text, ih]
  | matrix t ih => rw [regroup, text, text, ih]
  | reference t ih => rw [regroup, text, text, ih]
  | pointer d t ih =>
    cases d with
    | one => rw [regroup, text_addStar, text, ih]
    | two =>
      rw [regroup, text_addStar, text_addStar, text, ih, String.append_assoc]
      rfl

theorem height_addStar_le (t : DataType) : t.addStar.height ≤ t.height + 1 := by
  cases hs : t.isSingle with
  | false =>
    rw [addStar_of_not_isSingle hs]
    exact Nat.le_refl _
  | true =>
    obtain ⟨u, rfl⟩ := eq_of_isSingle hs
    exact Nat.le_succ _

/-- Two more stars are one more layer, whatever is in front of them. -/
theorem height_addStar_addStar (t : DataType) : t.addStar.addStar.height = t.height + 1 := by
  cases hs : t.isSingle with
  | false =>
    rw [addStar_of_not_isSingle hs]
    rfl
  | true =>
    obtain ⟨u, rfl⟩ := eq_of_isSingle hs
    rfl

/-- A type with its stars in pairs has no more layers than it had. -/
theorem height_regroup_le (t : DataType) : t.regroup.height ≤ t.height := by
  induction t with
  | primitive p => exact Nat.le_refl _
  | named name => exact Nat.le_refl _
  | array t ih => exact Nat.succ_le_succ ih
  | matrix t ih => exact Nat.succ_le_succ ih
  | reference t ih => exact Nat.succ_le_succ ih
  | pointer d t ih =>
    cases d with
    | one => exact (height_addStar_le _).trans (Nat.succ_le_succ ih)
    | two => exact (height_addStar_addStar _).trans_le (Nat.succ_le_succ ih)

theorem innermost_addStar (t : DataType) : t.addStar.innermost = t.innermost := by
  cases hs : t.isSingle with
  | false =>
    rw [addStar_of_not_isSingle hs]
    rfl
  | true =>
    obtain ⟨u, rfl⟩ := eq_of_isSingle hs
    rfl

theorem innermost_regroup (t : DataType) : t.regroup.innermost = t.innermost := by
  induction t with
  | primitive p => rfl
  | named name => rfl
  | array t ih => exact ih
  | matrix t ih => exact ih
  | reference t ih => exact ih
  | pointer d t ih =>
    cases d with
    | one => exact (innermost_addStar _).trans ih
    | two => exact (innermost_addStar _).trans ((innermost_addStar _).trans ih)

theorem WellFormed.addStar {t : DataType} (h : t.WellFormed) : t.addStar.WellFormed := by
  cases hs : t.isSingle with
  | false =>
    rw [addStar_of_not_isSingle hs]
    exact h
  | true =>
    obtain ⟨u, rfl⟩ := eq_of_isSingle hs
    exact h

theorem WellFormed.regroup {t : DataType} (h : t.WellFormed) : t.regroup.WellFormed := by
  induction t with
  | primitive p => exact h
  | named name => exact h
  | array t ih => exact ih h
  | matrix t ih => exact ih h
  | reference t ih => exact ih h
  | pointer d t ih =>
    cases d with
    | one => exact (ih h).addStar
    | two => exact (ih h).addStar.addStar

end DataType

/-! ### Words that touch one another -/

/-- Words without layout between them or behind the last one, each of which is told from the text
that follows it. -/
inductive Touching : List Piece → List Char → Prop
  | nil {rest : List Char} : Touching [] rest
  | cons {k : Terminal} {w : List Char} {xs : List Piece} {rest : List Char} (hm : k.Matches w)
      (he : k.EndsBefore (weave xs rest)) (h : Touching xs rest) : Touching (⟨[], k, w⟩ :: xs) rest

namespace Touching

variable {xs ys : List Piece} {rest : List Char}

theorem append (h : Touching xs (weave ys rest)) (h' : Touching ys rest) :
    Touching (xs ++ ys) rest := by
  induction xs with
  | nil => exact h'
  | cons x xs ih =>
    cases h with
    | cons hm he h =>
      rw [← weave_append] at he
      exact .cons hm he (ih h)

theorem single {k : Terminal} {w : List Char} (hm : k.Matches w) (he : k.EndsBefore rest) :
    Touching [⟨[], k, w⟩] rest := .cons hm he .nil

theorem laid (h : Touching xs []) (place : Position) :
    Laid place (tokensFrom place xs) (weave xs []) := by
  induction xs generalizing place with
  | nil => exact .nil .nil
  | cons x xs ih =>
    cases h with
    | cons hm he h => exact .piece (x := ⟨[], _, _⟩) .nil hm he (ih h _)

end Touching

/-! ### The words of a type -/

/-- What may stand behind the text of a type: nothing that carries on a name or opens a matrix, and
no star behind a single one. -/
structure DataType.EndsBefore (t : DataType) (rest : List Char) : Prop where
  name : startsWith Ascii.isNameChar rest = false
  angle : Scan.angle rest = none
  star : t.isSingle = true → startsWith (· = '*') rest = false

/-- Whether some words are the text of a type and derive it, wherever they stand. -/
structure DataType.Written (t : DataType) (xs : List Piece) : Prop where
  text : weave xs [] = t.text.toList
  touching : ∀ rest, t.EndsBefore rest → Touching xs rest
  derived : ∀ place, ∃ (d : DerivationTree .type) (tree : Tree), d.tokens = tokensFrom place xs ∧
    d.Clear ∧ d.pieces = [tree] ∧ Tree.DenotesType tree t

/-- The parts of a name behind the first one, each behind a double colon. -/
def partPieces (parts : List String) : List Piece :=
  parts.flatMap fun part => [⟨[], .doubleColon, "::".toList⟩, ⟨[], .identifier, part.toList⟩]

def namePieces (first : String) (parts : List String) : List Piece :=
  ⟨[], .identifier, first.toList⟩ :: partPieces parts

theorem weave_namePieces (first : String) (parts : List String) :
    weave (namePieces first parts) [] = ("::".intercalate (first :: parts)).toList := by
  induction parts generalizing first with
  | nil => simp only [namePieces, partPieces, weave, List.flatMap_nil, List.nil_append,
      List.append_nil, String.intercalate_singleton]
  | cons part parts ih =>
    rw [String.intercalate_cons_cons, String.toList_append, String.toList_append, ← ih]
    simp only [namePieces, partPieces, weave, List.flatMap_cons, List.cons_append,
      List.nil_append, List.append_assoc]

theorem touching_namePieces {first : String} {parts : List String} {rest : List Char}
    (hf : Pattern.IsName first.toList) (hp : ∀ part ∈ parts, Pattern.IsName part.toList)
    (hr : startsWith Ascii.isNameChar rest = false) (ha : Scan.angle rest = none) :
    Touching (namePieces first parts) rest := by
  induction parts generalizing first with
  | nil => exact .single hf ⟨hr, ha⟩
  | cons part parts ih =>
    obtain ⟨hpart, hparts⟩ := List.forall_mem_cons.1 hp
    have hcolon : identifier.EndsBefore (':' :: ':' :: weave (namePieces part parts) rest) :=
      ⟨rfl, Scan.angle_cons_other rfl (by decide)⟩
    exact .cons hf hcolon (.cons rfl trivial (ih hpart hparts))

/-- The parts of a name derive what may follow its first part. -/
theorem exists_parts (parts : List String) (place : Position) :
    ∃ e : DerivationTree (.many (doubleColon ++ identifier)),
      e.tokens = tokensFrom place (partPieces parts) ∧ e.Clear ∧
        List.Forall₂ Tree.IsName (e.pieces.filter fun t => !t.isPunctuation) parts := by
  induction parts generalizing place with
  | nil => exact ⟨.none, rfl, trivial, .nil⟩
  | cons part parts ih =>
    let colons := Piece.token place ⟨[], .doubleColon, "::".toList⟩
    let name := Piece.token colons.range.stop ⟨[], .identifier, part.toList⟩
    obtain ⟨e, htokens, hclear, hnames⟩ := ih name.range.stop
    refine ⟨.more (.seq (.terminal colons rfl) (.terminal name rfl)) e, ?_, ?_, ?_⟩
    · rw [DerivationTree.tokens, htokens]
      rfl
    · refine ⟨⟨trivial, trivial, False.elim⟩, hclear, ?_⟩
      rintro (hlist | ⟨-, hlist⟩) <;> exact hlist.elim
    · exact .cons ⟨name.range, congrArg (Tree.token _ · _) String.ofList_toList⟩ hnames

namespace DataType

theorem written_named {first : String} {parts : List String} (hf : Pattern.IsName first.toList)
    (hp : ∀ part ∈ parts, Pattern.IsName part.toList) {t : DataType}
    (ht : ofName ("::".intercalate (first :: parts)) = t)
    (hs : t.text = "::".intercalate (first :: parts)) :
    t.Written (namePieces first parts) where
  text := (weave_namePieces first parts).trans (congrArg String.toList hs.symm)
  touching _ h := touching_namePieces hf hp h.name h.angle
  derived place := by
    let name := Piece.token place ⟨[], .identifier, first.toList⟩
    obtain ⟨e, htokens, hclear, hnames⟩ := exists_parts parts name.range.stop
    refine ⟨.type (.left (.left (.left (.left (.left (.rule (.seq (.terminal name rfl) e))))))), _,
      ?_, ⟨nofun, trivial, hclear, nofun⟩, rfl, ?_⟩
    · exact congrArg (name :: ·) htokens
    · rw [← ht]
      exact .name (.cons ⟨name.range, congrArg (Tree.token _ · _) String.ofList_toList⟩ hnames)

/-- A layer whose signs stand behind the type it wraps. -/
theorem Written.behind {t u : DataType} {xs ys : List Piece} (h : t.Written xs)
    (htext : u.text.toList = t.text.toList ++ weave ys [])
    (hends : ∀ rest, u.EndsBefore rest → t.EndsBefore (weave ys rest))
    (htouching : ∀ rest, u.EndsBefore rest → Touching ys rest)
    (hlayer : ∀ (d : DerivationTree .type) (tree : Tree) (place : Position), d.Clear →
      d.pieces = [tree] → Tree.DenotesType tree t →
      ∃ (e : DerivationTree .type) (tree' : Tree), e.tokens = d.tokens ++ tokensFrom place ys ∧
        e.Clear ∧ e.pieces = [tree'] ∧ Tree.DenotesType tree' u) :
    u.Written (xs ++ ys) where
  text := by rw [htext, ← h.text, weave_append, ← weave_tail, List.nil_append]
  touching rest hr := (h.touching _ (hends rest hr)).append (htouching rest hr)
  derived place := by
    obtain ⟨d, tree, htokens, hclear, hpieces, hdenotes⟩ := h.derived place
    obtain ⟨e, tree', he, hclear', hpieces', hdenotes'⟩ :=
      hlayer d tree (place.advance (weave xs [])) hclear hpieces hdenotes
    refine ⟨e, tree', ?_, hclear', hpieces', hdenotes'⟩
    rw [he, htokens, tokensFrom_append]

/-- A sign behind a type is no part of a name and opens no matrix. -/
theorem endsBefore_sign {t : DataType} {c : Char} {rest : List Char}
    (hn : Ascii.isNameChar c = false) (hb : Blank.isMatrixBlank c = false) (hc : c ≠ '<')
    (hs : t.isSingle = true → c ≠ '*') : t.EndsBefore (c :: rest) :=
  ⟨hn, Scan.angle_cons_other hb hc, fun h => decide_eq_false (hs h)⟩

/-- The node of a layer keeps nothing of its signs. -/
theorem denotes_close {t u : DataType} {tree : Tree} {r : Rule} {signs : List Tree}
    (ht : tree.DenotesType t) (hs : ∀ s ∈ signs, s.isPunctuation = true)
    (hu : ∀ range, (Tree.node (.known r) range [tree]).DenotesType u) :
    (Tree.close r (tree :: signs)).DenotesType u := by
  have htree : tree.isPunctuation = false := by cases ht <;> rfl
  have hkept : (tree :: signs).filter (fun t => !t.isPunctuation) = [tree] := by
    rw [List.filter_cons_of_pos (by rw [htree]; rfl), List.filter_eq_nil_iff.2]
    exact fun s hmem => by rw [hs s hmem]; decide
  rw [Tree.close, hkept]
  exact hu _

theorem Written.pointer {t : DataType} {xs : List Piece} (h : t.Written xs)
    (hs : t.isSingle = false) : (DataType.pointer .one t).Written (xs ++ [⟨[], .star, ['*']⟩]) := by
  refine h.behind String.toList_append ?_ ?_ ?_
  · intro rest _
    exact endsBefore_sign rfl rfl (by decide) fun hsingle => absurd hsingle (by rw [hs]; decide)
  · intro rest hr
    exact .single rfl (hr.star rfl)
  · intro d tree place hclear hpieces hdenotes
    let star := Piece.token place ⟨[], .star, ['*']⟩
    refine ⟨.type (.left (.left (.left (.left (.right (.rule (.seq d (.terminal star rfl)))))))),
      _, rfl, ⟨nofun, hclear.snoc (k := .star) rfl (by decide)⟩, rfl, ?_⟩
    show (Tree.close .pointerType (d.pieces ++ [star.tree])).DenotesType _
    rw [hpieces]
    exact denotes_close hdenotes (List.forall_mem_singleton.2 rfl) fun _ => .pointer hdenotes

theorem Written.doublePointer {t : DataType} {xs : List Piece} (h : t.Written xs)
    (hs : t.isSingle = false) :
    (DataType.pointer .two t).Written (xs ++ [⟨[], .doubleStar, ['*', '*']⟩]) := by
  refine h.behind String.toList_append ?_ ?_ ?_
  · intro rest _
    exact endsBefore_sign rfl rfl (by decide) fun hsingle => absurd hsingle (by rw [hs]; decide)
  · intro rest _
    exact .single rfl trivial
  · intro d tree place hclear hpieces hdenotes
    let stars := Piece.token place ⟨[], .doubleStar, ['*', '*']⟩
    refine ⟨.type (.left (.left (.left (.right (.rule (.seq d (.terminal stars rfl))))))),
      _, rfl, ⟨nofun, hclear.snoc (k := .doubleStar) rfl (by decide)⟩, rfl, ?_⟩
    show (Tree.close .doublePointerType (d.pieces ++ [stars.tree])).DenotesType _
    rw [hpieces]
    exact denotes_close hdenotes (List.forall_mem_singleton.2 rfl) fun _ => .doublePointer hdenotes

theorem Written.reference {t : DataType} {xs : List Piece} (h : t.Written xs) :
    (DataType.reference t).Written (xs ++ [⟨[], .ampersand, ['&']⟩]) := by
  refine h.behind String.toList_append ?_ ?_ ?_
  · exact fun rest _ => endsBefore_sign rfl rfl (by decide) fun _ => by decide
  · intro rest _
    exact .single rfl trivial
  · intro d tree place hclear hpieces hdenotes
    let sign := Piece.token place ⟨[], .ampersand, ['&']⟩
    refine ⟨.type (.left (.left (.right (.rule (.seq d (.terminal sign rfl)))))),
      _, rfl, ⟨nofun, hclear.snoc (k := .ampersand) rfl (by decide)⟩, rfl, ?_⟩
    show (Tree.close .referenceType (d.pieces ++ [sign.tree])).DenotesType _
    rw [hpieces]
    exact denotes_close hdenotes (List.forall_mem_singleton.2 rfl) fun _ => .reference hdenotes

theorem Written.array {t : DataType} {xs : List Piece} (h : t.Written xs) :
    (DataType.array t).Written
      (xs ++ [⟨[], .leftBracket, ['[']⟩, ⟨[], .rightBracket, [']']⟩]) := by
  refine h.behind String.toList_append ?_ ?_ ?_
  · exact fun rest _ => endsBefore_sign rfl rfl (by decide) fun _ => by decide
  · intro rest _
    exact .cons rfl trivial (.single rfl trivial)
  · intro d tree place hclear hpieces hdenotes
    let left := Piece.token place ⟨[], .leftBracket, ['[']⟩
    let right := Piece.token left.range.stop ⟨[], .rightBracket, [']']⟩
    have hleft : (DerivationTree.seq d (.terminal (k := .leftBracket) left rfl)).Clear :=
      hclear.snoc (k := .leftBracket) rfl (by decide)
    refine ⟨.type (.left (.right (.rule (.seq (.seq d (.terminal left rfl))
      (.terminal right rfl))))), _, List.append_assoc _ _ _,
      ⟨nofun, hleft.snoc (k := .rightBracket) rfl (by decide)⟩, rfl, ?_⟩
    show (Tree.close .arrayType (d.pieces ++ [left.tree] ++ [right.tree])).DenotesType _
    rw [hpieces]
    refine denotes_close hdenotes ?_ fun _ => .array hdenotes
    exact List.forall_mem_cons.2 ⟨rfl, List.forall_mem_singleton.2 rfl⟩

/-- The opening of a matrix is told from what follows it, whatever that is. -/
theorem Written.matrix {t : DataType} {xs : List Piece} (h : t.Written xs) :
    (DataType.matrix t).Written
      (⟨[], .matrixOpen, "Matrix<".toList⟩ :: (xs ++ [⟨[], .greater, ['>']⟩])) where
  text := by
    show "Matrix<".toList ++ weave (xs ++ [⟨[], .greater, ['>']⟩]) [] =
      ("Matrix<" ++ t.text ++ ">").toList
    rw [weave_append, ← List.nil_append (weave [_] []), weave_tail, h.text, String.toList_append,
      String.toList_append, List.append_assoc]
    rfl
  touching rest _ := by
    refine .cons ⟨[], nofun, rfl⟩ trivial ((h.touching _ ?_).append (.single rfl trivial))
    exact endsBefore_sign rfl rfl (by decide) fun _ => by decide
  derived place := by
    let opening := Piece.token place ⟨[], .matrixOpen, "Matrix<".toList⟩
    obtain ⟨d, tree, htokens, hclear, hpieces, hdenotes⟩ := h.derived opening.range.stop
    let close := Piece.token (opening.range.stop.advance (weave xs [])) ⟨[], .greater, ['>']⟩
    have hfront : (DerivationTree.seq (.terminal (k := .matrixOpen) opening rfl) d).Clear :=
      ⟨trivial, hclear, nofun⟩
    refine ⟨.type (.right (.rule (.seq (.seq (.terminal opening rfl) d) (.terminal close rfl)))), _,
      ?_, ⟨nofun, hfront.snoc (k := .greater) rfl (by decide)⟩, rfl, ?_⟩
    · rw [tokensFrom, tokensFrom_append, ← htokens]
      rfl
    · have hkept : ([opening.tree] ++ [tree] ++ [close.tree]).filter (fun t => !t.isPunctuation) =
          [opening.tree, tree] := by
        cases hdenotes <;> rfl
      show (Tree.close .matrixType ([opening.tree] ++ d.pieces ++ [close.tree])).DenotesType _
      rw [hpieces, Tree.close, hkept]
      exact .matrix hdenotes

/-- The texts of primitives that can be written stand for them. -/
theorem ofName_spelling {p : Primitive} (hp : p ≠ .void) :
    Pattern.IsName p.spelling.toList ∧ ofName p.spelling = .primitive p := by
  cases p <;> first | exact absurd rfl hp | exact ⟨⟨rfl, List.all_eq_true.1 rfl⟩, rfl⟩

theorem ofName_of_not_mem {name : String} (h : name ∉ keywords.map Prod.fst) :
    ofName name = .named name := by
  have hnone : keywords.lookup name = none := by
    rw [List.lookup_eq_none_iff]
    intro pair hpair
    exact bne_iff_ne.2 fun heq => h (heq ▸ List.mem_map_of_mem hpair)
  rw [ofName, hnone]

/-- A type whose stars are grouped is written as words that derive it. -/
theorem exists_written {t : DataType} (ht : t.WellFormed) (hg : t.Grouped) :
    ∃ xs, t.Written xs := by
  induction t with
  | primitive p =>
    obtain ⟨hname, hof⟩ := ofName_spelling ht
    have hsingle : "::".intercalate [p.spelling] = p.spelling := String.intercalate_singleton
    exact ⟨_, written_named hname (List.forall_mem_nil _) (hsingle ▸ hof) hsingle.symm⟩
  | named name =>
    obtain ⟨⟨parts, hne, hparts, rfl⟩, hkeyword⟩ := ht
    obtain ⟨first, parts, rfl⟩ := List.exists_cons_of_ne_nil hne
    obtain ⟨hfirst, hparts⟩ := List.forall_mem_cons.1 hparts
    exact ⟨_, written_named hfirst hparts (ofName_of_not_mem hkeyword) rfl⟩
  | array t ih =>
    obtain ⟨xs, hxs⟩ := ih ht (hg.inner rfl)
    exact ⟨_, hxs.array⟩
  | matrix t ih =>
    obtain ⟨xs, hxs⟩ := ih ht (hg.inner rfl)
    exact ⟨_, hxs.matrix⟩
  | reference t ih =>
    obtain ⟨xs, hxs⟩ := ih ht (hg.inner rfl)
    exact ⟨_, hxs.reference⟩
  | pointer d t ih =>
    obtain ⟨xs, hxs⟩ := ih ht (hg.inner rfl)
    cases d with
    | one => exact ⟨_, hxs.pointer hg.not_isSingle⟩
    | two => exact ⟨_, hxs.doublePointer hg.not_isSingle⟩

end DataType

/-! ### Reading the text of a type -/

theorem parseRule_written {t : DataType} {xs : List Piece} (h : t.Written xs) :
    parseRule .typeDecl t.text.toList = .ok (ofType t) := by
  obtain ⟨d, tree, htokens, hclear, hpieces, hdenotes⟩ := h.derived .start
  have hnil : t.EndsBefore [] := ⟨rfl, rfl, fun _ => rfl⟩
  have hlaid : Laid .start d.tokens t.text.toList := by
    rw [htokens, ← h.text]
    exact (h.touching [] hnil).laid .start
  have hread : StartRule.typeDecl.read t.text.toList = .ok tree :=
    StartRule.read_of_laid (r := .typeDecl) d hclear hpieces hlaid
  rw [parseRule_of_build hread hdenotes.build, settle_ofType]

theorem parseRule_text_regroup {t : DataType} (ht : t.WellFormed) :
    parseRule .typeDecl t.text.toList = .ok (ofType t.regroup) := by
  obtain ⟨xs, hxs⟩ := DataType.exists_written ht.regroup t.grouped_regroup
  rw [← t.text_regroup]
  exact parseRule_written hxs

/-- A type that a text denotes has a text exactly if it has no more layers than calls can be nested.
That text is read again, and to a type with the same text and the same innermost type. It is the
same type exactly if nowhere in it a pointer directly wraps a pointer of depth one. -/
theorem parseRule_text {text : List Char} {p : Part} (h : parseRule .typeDecl text = .ok p)
    (depth : Nat) :
    ∃ t : DataType, p = ofType t ∧ ((t.text? depth).isSome = true ↔ t.height ≤ depth) ∧
      ∀ s, t.text? depth = some s → ∃ t' : DataType,
        parseRule .typeDecl s.toList = .ok (ofType t') ∧ t'.text? depth = some s ∧
          t'.innermost = t.innermost ∧ (t' = t ↔ t.Grouped) := by
  obtain ⟨tree, t, hread, ht, rfl⟩ := denotes_of_parseRule h (builds_type text)
  have hwell : t.WellFormed := ht.wellFormed (StartRule.sound_of_read hread)
  refine ⟨t, settle_ofType t, by simp [DataType.text?_eq], fun s hs => ?_⟩
  obtain ⟨hheight, rfl⟩ := DataType.text?_eq_some.1 hs
  refine ⟨t.regroup, parseRule_text_regroup hwell, ?_, t.innermost_regroup, t.regroup_eq_self_iff⟩
  exact DataType.text?_eq_some.2 ⟨t.height_regroup_le.trans hheight, t.text_regroup⟩

/-- A type with several runs of stars, some of which are parted. -/
def partedStars : List Char := "Matrix <a :: Matrix * * [ ] **>** * &".toList

theorem parseRule_text_partedStars :
    ∃ t t' : DataType, parseRule .typeDecl partedStars = .ok (ofType t) ∧ t.height = 8 ∧
      ∃ s, t.text? DataType.usualDepth = some s ∧ parseRule .typeDecl s.toList = .ok (ofType t') ∧
        t'.text? DataType.usualDepth = some s ∧ t'.innermost = t.innermost ∧
        (t' = t ↔ t.Grouped) := by
  have hheight : (parseRule .typeDecl partedStars).toOption.map
      (fun p => p.type?.map DataType.height) = some (some 8) := by decide +kernel
  obtain ⟨p, hp, hlayers⟩ := exists_ok_of_map hheight
  obtain ⟨t, rfl, htext, hread⟩ := parseRule_text hp DataType.usualDepth
  rw [Part.type?_ofType] at hlayers
  have hlow : t.height = 8 := Option.some.inj hlayers
  obtain ⟨s, hs⟩ := Option.isSome_iff_exists.1 (htext.2 (by rw [hlow]; decide))
  obtain ⟨t', hparse, hrest⟩ := hread s hs
  exact ⟨t, t', hp, hlow, s, hs, hparse, hrest⟩

/-- A type with more layers than calls can usually be nested. -/
def deepType : List Char := 'a' :: List.replicate 520 '&'

/-- There are types of texts without a text. -/
theorem exists_type_deepType : ∃ t : DataType, parseRule .typeDecl deepType = .ok (ofType t) ∧
    t.text? DataType.usualDepth = none := by
  have hheight : (parseRule .typeDecl deepType).toOption.map
      (fun p => p.type?.map DataType.height) = some (some 520) := by decide +kernel
  obtain ⟨p, hp, hlayers⟩ := exists_ok_of_map hheight
  obtain ⟨tree, t, -, -, rfl⟩ := denotes_of_parseRule hp (builds_type deepType)
  rw [settle_ofType] at hp hlayers
  rw [Part.type?_ofType] at hlayers
  have hhigh : t.height = 520 := Option.some.inj hlayers
  refine ⟨t, hp, ?_⟩
  rw [DataType.text?_eq, hhigh]
  rfl

end ClassLang
