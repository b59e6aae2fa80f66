import ClassLang.Proofs.Build.TypeWords

/-!
# Plain methods

The texts of a method without arguments and of a method with a single argument, written with the
text of a type. With the tidied text of words that spell a type both are read, and keep exactly this
text (`Spells.parse_header`, `Spells.parse_argument`).
-/

namespace ClassLang

open Terminal ClassLang.Tree DerivationTree
open ClassLang.Part (ofLeaf)

/-- The text of a method that returns the same type and has no arguments. -/
def Method.header (m : Method) (name : String) : String :=
  (if m.isStatic then "static " else "") ++ m.returns ++ " " ++ name ++ "();"

/-- The text of a method with one argument of the same type. -/
def Argument.header (a : Argument) (name : String) : String :=
  "void f(" ++ a.type ++ " " ++ name ++ ");"

/-! ### Derivations of plain methods -/

namespace DerivationTree

section

variable {n l r e : Token} (hn : n.terminal = identifier) (hl : l.terminal = leftParen)
  (hr : r.terminal = rightParen) (he : e.terminal = semicolon)
  (mark : DerivationTree (.maybe (.terminal kwStatic))) (s : DerivationTree (.rule .typeSpelling))
  (a : DerivationTree (.maybe (.rule .arguments)))

def plainMethod : DerivationTree (.rule .methodDecl) :=
  .rule (.seq (.seq (.seq (.seq (.seq (.seq mark s) (.terminal n hn)) (.terminal l hl)) a)
    (.terminal r hr)) (.terminal e he))

theorem plainMethod_tokens : (plainMethod hn hl hr he mark s a).tokens =
    (mark.tokens ++ s.tokens) ++ ([n, l] ++ (a.tokens ++ [r, e])) := by
  show mark.tokens ++ s.tokens ++ [n] ++ [l] ++ a.tokens ++ [r] ++ [e] = _
  simp only [List.append_assoc, List.cons_append, List.nil_append]

theorem plainMethod_clear (hs : s.Clear) (ha : a.Clear)
    (hstatic : Avoids ["static"] (mark.tokens ++ s.tokens)) (hne : s.tokens ≠ []) :
    (plainMethod hn hl hr he mark s a).Clear := by
  have hmark : mark.Clear ∧ ¬mark.EndsInList := by
    match mark with
    | .absent => exact ⟨trivial, id⟩
    | .present (.terminal k hk) => exact ⟨trivial, id⟩
  have hfront : (DerivationTree.seq mark s).Clear := ⟨hmark.1, hs, fun hl => absurd hl hmark.2⟩
  have hends : ¬(DerivationTree.seq mark s).EndsInList := by
    rintro (hl | ⟨hnil, -⟩)
    · exact s.not_endsInList rfl hl
    · exact hne hnil
  have hnamed : (DerivationTree.seq (.seq mark s) (.terminal n hn)).Clear :=
    ⟨hfront, trivial, fun hl => absurd hl hends⟩
  have hopened := (hnamed.snoc hl (by decide)).behind_token ha
  have htokens := plainMethod_tokens hn hl hr he mark s a
  refine ⟨?_, (hopened.snoc hr (by decide)).snoc he (by decide)⟩
  show Avoids ["static"] (plainMethod hn hl hr he mark s a).tokens
  rw [htokens]
  exact Point.avoids_append hstatic (List.append_ne_nil_of_right_ne_nil _ hne)

variable {text : List Char} {m t u : Tree} {written : String} {d : DataType}
  {isStatic isConst : Bool} {as : List Argument} {mark s a}

theorem plainMethod_denotes (hm : mark.kept = [m]) (hmark : Marks kwStatic m isStatic)
    (hs : s.kept = [t]) (hspelling : DenotesSpelling text t written d isConst)
    (ha : a.kept = [u]) (harguments : DenoteArguments text u as) :
    ∃ tree, (plainMethod hn hl hr he mark s a).pieces = [tree] ∧
      DenotesMember text [] tree (.method ⟨n.text, written, as, [], isStatic⟩) := by
  refine ⟨_, pieces_eq_kept _, ?_⟩
  show DenotesMember text [] (.node (.known .methodDecl) _
    (mark.kept ++ s.kept ++ [n.tree] ++ [] ++ a.kept ++ [] ++ [])) _
  rw [hm, hs, ha, Token.tree, hn]
  exact .method hmark hspelling ⟨n.range, rfl⟩ harguments

end

section

variable {i : Token} (hi : i.terminal = identifier) (s : DerivationTree (.rule .typeSpelling))

/-- A single argument without properties and a first value. -/
def plainArguments : DerivationTree (.maybe (.rule .arguments)) :=
  .present (.rule (.seq (.rule (.seq (.seq (.seq .absent s) (.terminal i hi)) .absent)) .none))

theorem plainArguments_tokens : (plainArguments hi s).tokens = s.tokens ++ [i] := by
  show s.tokens ++ [i] ++ [] ++ [] = _
  rw [List.append_nil, List.append_nil]

theorem plainArguments_clear (hs : s.Clear) (hne : s.tokens ≠ []) :
    (plainArguments hi s).Clear := by
  have hfront : (DerivationTree.seq (.absent (p := .rule .properties)) s).Clear :=
    ⟨trivial, hs, False.elim⟩
  have hends : ¬(DerivationTree.seq (.absent (p := .rule .properties)) s).EndsInList := by
    rintro (hl | ⟨hnil, -⟩)
    · exact s.not_endsInList rfl hl
    · exact hne hnil
  have hnamed : (DerivationTree.seq (.seq (.absent (p := .rule .properties)) s)
      (.terminal i hi)).Clear := ⟨hfront, trivial, fun hl => absurd hl hends⟩
  have hinitial : (DerivationTree.absent (p := .seq (.terminal equals) (.rule .value))).Clear :=
    trivial
  exact ⟨fun _ _ _ => List.not_mem_nil, ⟨fun _ _ _ => List.not_mem_nil,
    hnamed.behind_token hinitial⟩, trivial, fun _ => Point.avoids_nil⟩

variable {text : List Char} {t : Tree} {written : String} {d : DataType} {isConst : Bool} {s}

theorem plainArguments_denotes (hs : s.kept = [t])
    (hspelling : DenotesSpelling text t written d isConst) :
    ∃ u, (plainArguments hi s).kept = [u] ∧
      DenoteArguments text u [⟨i.text, written, Option.none, []⟩] := by
  refine ⟨_, rfl, .present (.cons ?_ .nil)⟩
  show DenotesArgument text (.node (.known .argument) _
    ([.absent] ++ s.kept ++ [i.tree] ++ [.absent])) _
  rw [hs, Token.tree, hi]
  exact .argument .absent hspelling ⟨i.range, rfl⟩ .absent

end

end DerivationTree

/-- A text that is laid out from a clear derivation of a member is parsed to it. -/
theorem parseRule_of_member {f : DerivationTree (.rule .methodDecl)} {text : List Char}
    {tree : Tree} {k : Leaf} (hclear : f.Clear) (hpieces : f.pieces = [tree])
    (hlaid : Laid .start f.tokens text) (hd : DenotesMember text [] tree k) :
    parseRule .methodDecl text = .ok (ofLeaf k) := by
  have hread : StartRule.methodDecl.read text = .ok tree :=
    StartRule.read_of_laid (r := .methodDecl) f hclear hpieces hlaid
  obtain ⟨k₀, hbuild, hk⟩ := hd.build
  rw [Leaf.propagate_nil] at hk
  subst hk
  rw [parseRule_of_build hread hbuild]
  cases k <;> rfl

/-- A plain method whose tokens are apart in a text is parsed to what it is made of. -/
theorem parseRule_plainMethod {n l r e : Token} {hn : n.terminal = identifier}
    {hl : l.terminal = leftParen} {hr : r.terminal = rightParen} {he : e.terminal = semicolon}
    {mark : DerivationTree (.maybe (.terminal kwStatic))}
    {s : DerivationTree (.rule .typeSpelling)} {a : DerivationTree (.maybe (.rule .arguments))}
    {xs : List Piece} {m t u : Tree} {written : String} {d : DataType} {isStatic isConst : Bool}
    {as : List Argument} (hxs : Apart xs [])
    (htokens : (plainMethod hn hl hr he mark s a).tokens = tokensFrom .start xs)
    (hclear : (plainMethod hn hl hr he mark s a).Clear) (hm : mark.kept = [m])
    (hmark : Marks kwStatic m isStatic) (hs : s.kept = [t])
    (hspelling : DenotesSpelling (weave xs []) t written d isConst) (ha : a.kept = [u])
    (harguments : DenoteArguments (weave xs []) u as) :
    parseRule .methodDecl (weave xs []) =
      .ok (ofLeaf (.method ⟨n.text, written, as, [], isStatic⟩)) := by
  obtain ⟨tree, hpieces, hdenotes⟩ :=
    plainMethod_denotes hn hl hr he hm hmark hs hspelling ha harguments
  exact parseRule_of_member hclear hpieces (htokens ▸ hxs.laid .nil .start) hdenotes

/-! ### Words around a type -/

/-- What follows the type of a method without arguments. -/
def methodEnd (name : List Char) : List Piece :=
  [⟨[' '], identifier, name⟩, ⟨[], leftParen, "(".toList⟩, ⟨[], rightParen, ")".toList⟩,
    ⟨[], semicolon, ";".toList⟩]

/-- What stands in front of the type of a single argument. -/
def argumentStart : List Piece :=
  [⟨[], identifier, "void".toList⟩, ⟨[' '], identifier, "f".toList⟩, ⟨[], leftParen, "(".toList⟩]

/-- What follows the type of a single argument. -/
def argumentEnd (name : List Char) : List Piece :=
  [⟨[' '], identifier, name⟩, ⟨[], rightParen, ")".toList⟩, ⟨[], semicolon, ";".toList⟩]

section

variable {name : List Char}

theorem apart_methodEnd (hn : Pattern.IsName name) : Apart (methodEnd name) [] :=
  .cons (.blank rfl .nil) hn (endsBefore_sign rfl rfl (by decide))
    (.cons .nil rfl trivial (.cons .nil rfl trivial (.cons .nil rfl trivial .nil)))

theorem apart_argumentEnd (hn : Pattern.IsName name) : Apart (argumentEnd name) [] :=
  .cons (.blank rfl .nil) hn (endsBefore_sign rfl rfl (by decide))
    (.cons .nil rfl trivial (.cons .nil rfl trivial .nil))

theorem apart_argumentStart (rest : List Char) : Apart argumentStart rest := by
  have hvoid : Pattern.IsName "void".toList := ⟨rfl, List.all_eq_true.1 rfl⟩
  have hf : identifier.Matches "f".toList := ⟨rfl, nofun⟩
  exact .cons .nil hvoid (endsBefore_spaced hf _ _)
    (.cons (.blank rfl .nil) hf (endsBefore_sign rfl rfl (by decide)) (.cons .nil rfl trivial .nil))

end

theorem avoids_of_text {words : List String} {t : Token} (ts : List Token) (h : t.text ∉ words) :
    Avoids words (t :: ts) := by
  rintro u hu -
  obtain rfl := Option.some.inj hu
  exact h

/-- With other layout the first word is taken for a keyword no more than before. -/
theorem avoids_respaced {words : List String} {xs ys : List Piece} {place : Position}
    (h : List.Forall₂ Piece.Respaced xs ys) (ha : Avoids words (tokensFrom place xs))
    (place' : Position) : Avoids words (tokensFrom place' ys) := by
  cases h with
  | nil => exact ha
  | @cons x y xs ys hxy _ =>
    intro t ht hi
    obtain rfl := Option.some.inj ht
    have hterminal : (x.token place).terminal = identifier := hxy.terminal.symm.trans hi
    have hword := ha _ rfl hterminal
    rw [Piece.token, ← hxy.name hterminal] at hword
    exact hword

theorem spells_void : Spells [⟨[], identifier, "void".toList⟩] (.ofName "void") false where
  words := List.forall_mem_singleton.2 ⟨rfl, ⟨rfl, List.all_eq_true.1 rfl⟩, .nil⟩
  apart rest hends := .cons .nil ⟨rfl, List.all_eq_true.1 rfl⟩ (hends _) .nil
  derived place := by
    let t := Piece.token place ⟨[], identifier, "void".toList⟩
    let e : DerivationTree .type :=
      .type (.left (.left (.left (.left (.left (.rule (.seq (.terminal t rfl) .none)))))))
    have hone : ("::".intercalate ["void"]) = "void" := String.intercalate_singleton
    refine ⟨.absent, e, .absent, _, rfl, ?_, rfl, rfl, .absent, ?_⟩
    · have hword : String.ofList "void".toList ∉ marks .typeSpelling := by decide
      exact ⟨avoids_of_text _ hword, trivial, ⟨nofun, trivial, trivial, False.elim⟩, False.elim⟩
    · exact hone ▸ .name (.cons ⟨t.range, rfl⟩ .nil)

namespace Spells

variable {xs : List Piece} {d : DataType} {isConst : Bool}

theorem ne_nil (h : Spells xs d isConst) : xs ≠ [] := by
  obtain ⟨mark, x, zs, rfl, -⟩ := h.parse_type
  exact List.append_ne_nil_of_right_ne_nil mark (List.cons_ne_nil x zs)

theorem tokensFrom_ne_nil (h : Spells xs d isConst) (place : Position) :
    tokensFrom place xs ≠ [] := by
  obtain ⟨x, ys, rfl⟩ := List.exists_cons_of_ne_nil h.ne_nil
  exact List.cons_ne_nil _ _

/-- Behind a mark, or none, words that spell a type are the return type of a method. -/
theorem parse_marked (h : Spells xs d isConst) (front : List Piece) {gap name : List Char}
    {m : Tree} {isStatic : Bool} {mark : DerivationTree (.maybe (.terminal kwStatic))}
    (hg : Layout.IsGap true gap) (hn : Pattern.IsName name)
    (hfront : ∀ ys, Apart front (weave (lead gap xs ++ ys) []))
    (hmark : mark.tokens = tokensFrom .start front) (hm : mark.kept = [m])
    (hstatic : Marks kwStatic m isStatic)
    (havoids : Avoids ["static"] (tokensFrom .start (front ++ lead gap xs))) :
    parseRule .methodDecl (weave front [] ++ (gap ++ (inner xs ++ (' ' :: name ++ "();".toList)))) =
      .ok (ofLeaf (.method ⟨String.ofList name, String.ofList (tidied xs), [], [], isStatic⟩)) := by
  have hlead := h.behind hg
  obtain ⟨s, node, hclear, hs, hkept, hspelling⟩ := hlead.exists_spelling front (methodEnd name) []
  obtain ⟨n, l, r, e, hback, hnt, hl, hr, he, htext⟩ : ∃ n l r e,
      tokensFrom ((Position.start.advance (weave front [])).advance (weave (lead gap xs) []))
        (methodEnd name) = [n, l, r, e] ∧ n.terminal = identifier ∧ l.terminal = leftParen ∧
      r.terminal = rightParen ∧ e.terminal = semicolon ∧ n.text = String.ofList name :=
    ⟨_, _, _, _, rfl, rfl, rfl, rfl, rfl, rfl⟩
  have hends : ∀ k : Terminal, k.EndsBefore (weave (methodEnd name) []) :=
    endsBefore_spaced (t := identifier) (w := name) hn ("();".toList)
  have hapart : Apart (front ++ (lead gap xs ++ methodEnd name)) [] :=
    (hfront _).append ((hlead.apart _ hends).append (apart_methodEnd hn))
  have htokens : (plainMethod hnt hl hr he mark s .absent).tokens =
      tokensFrom .start (front ++ (lead gap xs ++ methodEnd name)) := by
    rw [plainMethod_tokens, tokensFrom_append, tokensFrom_append, hback, hmark, hs,
      List.append_assoc]
    rfl
  have hwhole : weave (front ++ (lead gap xs ++ methodEnd name)) [] =
      weave front [] ++ (gap ++ (inner xs ++ (' ' :: name ++ "();".toList))) := by
    rw [weave_append, weave_append, weave_lead h.ne_nil, ← weave_tail, List.nil_append]
    rfl
  have hne : s.tokens ≠ [] := by
    rw [hs]
    exact hlead.tokensFrom_ne_nil _
  have hstart : Avoids ["static"] (mark.tokens ++ s.tokens) := by
    rw [hmark, hs, ← tokensFrom_append]
    exact havoids
  have hparse := parseRule_plainMethod hapart htokens
    (plainMethod_clear hnt hl hr he mark s .absent hclear trivial hstart hne) hm hstatic hkept
    hspelling rfl .absent
  rwa [hwhole, htext, tidied_lead] at hparse

/-- A word in front of layout. -/
theorem apart_behind (h : Spells xs d isConst) {k : Terminal} {w : List Char} (hm : k.Matches w)
    (ys : List Piece) : Apart [⟨[], k, w⟩] (weave (lead [' '] xs ++ ys) []) := by
  obtain ⟨x, zs, rfl⟩ := List.exists_cons_of_ne_nil h.ne_nil
  have hword := (h.words x List.mem_cons_self).2.1
  exact .cons .nil hm (endsBefore_spaced hword _ k) .nil

/-- A method that returns a type by the tidied text of its words keeps this text. -/
theorem parse_header (h : Spells xs d isConst) {m : Method} {name : String}
    (hn : Pattern.IsName name.toList) (hwritten : m.returns = String.ofList (tidied xs))
    {place : Position} (hfirst : m.isStatic = false → Avoids ["static"] (tokensFrom place xs)) :
    parseRule .methodDecl (m.header name).toList =
      .ok (ofLeaf (.method ⟨name, m.returns, [], [], m.isStatic⟩)) := by
  have htidy := h.tidy
  have hname : String.ofList name.toList = name := String.ofList_toList
  have hreturns : String.ofList (tidied (xs.map Piece.tidy)) = m.returns := by
    rw [tidied_tidy, hwritten]
  have hinner : inner (xs.map Piece.tidy) = m.returns.toList := by
    rw [hwritten, String.toList_ofList, tidied]
  cases hstatic : m.isStatic with
  | true =>
    let x : Piece := ⟨[], kwStatic, "static".toList⟩
    let mark : DerivationTree (.maybe (.terminal kwStatic)) :=
      .present (.terminal (x.token .start) rfl)
    have hmark : mark.tokens = tokensFrom .start [x] := rfl
    have hkept : mark.kept = [(x.token .start).tree] := rfl
    have hparse := htidy.parse_marked [x] (.blank rfl .nil) hn (htidy.apart_behind rfl) hmark hkept
      .present (Point.avoids_of_terminal rfl (by decide))
    rw [hname, hreturns, hinner] at hparse
    rw [← hparse, Method.header, hstatic]
    congr 1
    simp only [String.toList_append, if_true, List.append_assoc]
    rfl
  | false =>
    let mark : DerivationTree (.maybe (.terminal kwStatic)) := .absent
    have hmark : mark.tokens = tokensFrom .start [] := rfl
    have hkept : mark.kept = [.absent] := rfl
    have hrespaced := forall₂_respaced_tidy h.words
    have havoids := avoids_respaced (htidy.words.behind .nil).2
      (avoids_respaced hrespaced (hfirst hstatic) .start) .start
    have hparse := htidy.parse_marked [] .nil hn (fun _ => .nil) hmark hkept .absent havoids
    rw [hname, hreturns, hinner] at hparse
    rw [← hparse, Method.header, hstatic]
    congr 1
    simp only [String.toList_append, List.append_assoc]
    rfl

/-- An argument of a type that is given by the tidied text of its words keeps this text. -/
theorem parse_argument (h : Spells xs d isConst) {a : Argument} {name : String}
    (hn : Pattern.IsName name.toList) (hwritten : a.type = String.ofList (tidied xs)) :
    parseRule .methodDecl (a.header name).toList =
      .ok (ofLeaf (.method ⟨"f", "void", [⟨name, a.type, none, []⟩], [], false⟩)) := by
  let ys : List Piece := lead [] (xs.map Piece.tidy)
  have hlead : Spells ys d isConst := h.tidy.behind .nil
  -- the types of the method and of its argument, in the text as a whole
  obtain ⟨v, vnode, hv, hvtokens, hvkept, hvoid⟩ :=
    spells_void.exists_spelling [] (argumentStart.tail ++ (ys ++ argumentEnd name.toList)) []
  obtain ⟨s, node, hclear, hs, hkept, hspelling⟩ :=
    hlead.exists_spelling argumentStart (argumentEnd name.toList) []
  obtain ⟨x, f, l, hfront, hx, hf, hl, hftext⟩ : ∃ x f l,
      tokensFrom .start argumentStart = [x, f, l] ∧ v.tokens = [x] ∧ f.terminal = identifier ∧
      l.terminal = leftParen ∧ f.text = "f" :=
    ⟨_, _, _, rfl, hvtokens, rfl, rfl, rfl⟩
  obtain ⟨i, r, e, hback, hi, hr, he, htext⟩ : ∃ i r e,
      tokensFrom ((Position.start.advance (weave argumentStart [])).advance (weave ys []))
        (argumentEnd name.toList) = [i, r, e] ∧ i.terminal = identifier ∧
      r.terminal = rightParen ∧ e.terminal = semicolon ∧ i.text = String.ofList name.toList :=
    ⟨_, _, _, rfl, rfl, rfl, rfl, rfl⟩
  have hends : ∀ k : Terminal, k.EndsBefore (weave (argumentEnd name.toList) []) :=
    endsBefore_spaced (t := identifier) (w := name.toList) hn (");".toList)
  have hapart : Apart (argumentStart ++ (ys ++ argumentEnd name.toList)) [] :=
    (apart_argumentStart _).append ((hlead.apart _ hends).append (apart_argumentEnd hn))
  have htokens : (plainMethod hf hl hr he .absent v (plainArguments hi s)).tokens =
      tokensFrom .start (argumentStart ++ (ys ++ argumentEnd name.toList)) := by
    rw [plainMethod_tokens, plainArguments_tokens, tokensFrom_append, tokensFrom_append, hfront,
      hback, hx, hs, List.append_assoc (tokensFrom _ ys)]
    rfl
  have hwhole : weave (argumentStart ++ (ys ++ argumentEnd name.toList)) [] =
      (a.header name).toList := by
    have hys : weave ys [] = a.type.toList := by
      rw [weave_lead_nil, hwritten, String.toList_ofList, tidied]
    rw [weave_append, weave_append, ← List.nil_append (weave (argumentEnd _) []), weave_tail, hys,
      Argument.header]
    simp only [String.toList_append, List.append_assoc]
    rfl
  have htype : String.ofList (tidied ys) = a.type := by
    rw [tidied_lead, tidied_tidy, hwritten]
  have hvne : v.tokens ≠ [] := hx ▸ List.cons_ne_nil x []
  have hne : s.tokens ≠ [] := hs ▸ hlead.tokensFrom_ne_nil _
  have hword : String.ofList "void".toList ∉ ["static"] := by decide
  have hstart : Avoids ["static"] v.tokens := hvtokens ▸ avoids_of_text [] hword
  obtain ⟨u, hu, harguments⟩ := plainArguments_denotes hi hkept hspelling
  have hparse := parseRule_plainMethod hapart htokens
    (plainMethod_clear hf hl hr he .absent v _ hv (plainArguments_clear hi s hclear hne) hstart
      hvne) rfl .absent hvkept hvoid hu harguments
  rwa [hwhole, hftext, htext, htype, String.ofList_toList] at hparse

end Spells

end ClassLang
