import ClassLang.Proofs.Build.MethodText

/-!
# The types of methods are kept faithfully

The types that a method keeps as texts are the words of these types with single spaces for layout.
Such a text is a normal form: written back as the type of a method or of an argument it is kept
unchanged, and without the qualifier it is read as the type that the source spells. Main statement:
`parseRule_method_types`.
-/

namespace ClassLang

open Terminal ClassLang.Tree DerivationTree
open ClassLang.Part (ofLeaf ofType)

/-! ### Parts of a derivation -/

namespace DerivationTree

/-- Whether a derivation stands somewhere in another one. -/
structure Within {p q : Phrase} (e : DerivationTree q) (d : DerivationTree p) : Prop where
  clear : d.Clear → e.Clear
  tokens : ∃ front behind, d.tokens = front ++ (e.tokens ++ behind)

namespace Within

variable {o p q : Phrase} {f : DerivationTree o} {e : DerivationTree q} {d : DerivationTree p}

theorem refl (e : DerivationTree q) : e.Within e :=
  ⟨id, [], [], (List.append_nil e.tokens).symm⟩

theorem trans (h : f.Within e) (h' : e.Within d) : f.Within d := by
  obtain ⟨front, behind, he⟩ := h.tokens
  obtain ⟨front', behind', hd⟩ := h'.tokens
  refine ⟨fun hc => h.clear (h'.clear hc), front' ++ front, behind ++ behind', ?_⟩
  rw [hd, he]
  simp only [List.append_assoc]

theorem rule {r : Rule} {f : DerivationTree r.phrase} (h : e.Within f) :
    e.Within (DerivationTree.rule f) :=
  ⟨fun hd => h.clear hd.2, h.tokens⟩

theorem present (h : e.Within d) : e.Within (DerivationTree.present d) := ⟨h.clear, h.tokens⟩

theorem seq_left (h : e.Within d) (f : DerivationTree o) : e.Within (DerivationTree.seq d f) := by
  obtain ⟨front, behind, hd⟩ := h.tokens
  refine ⟨fun hc => h.clear hc.1, front, behind ++ f.tokens, ?_⟩
  rw [DerivationTree.tokens, hd]
  simp only [List.append_assoc]

theorem seq_right (h : e.Within d) (f : DerivationTree o) : e.Within (DerivationTree.seq f d) := by
  obtain ⟨front, behind, hd⟩ := h.tokens
  refine ⟨fun hc => h.clear hc.2.1, f.tokens ++ front, behind, ?_⟩
  rw [DerivationTree.tokens, hd, List.append_assoc]

theorem first {f : DerivationTree (.many p)} (h : e.Within d) :
    e.Within (DerivationTree.more d f) :=
  ⟨fun hc => h.clear hc.1, (h.seq_left f).tokens⟩

theorem later {f : DerivationTree (.many p)} (h : e.Within f) :
    e.Within (DerivationTree.more d f) :=
  ⟨fun hc => h.clear hc.2.1, (h.seq_right d).tokens⟩

end Within

theorem moreItems_within {r : Rule} (d : DerivationTree (.many (.seq (.terminal .comma) (.rule r))))
    {t : Tree} (h : t ∈ d.kept) : ∃ e : DerivationTree (.rule r), e.kept = [t] ∧ e.Within d := by
  match d with
  | .more (.seq (.terminal s hs) (.rule e)) rest =>
    rcases List.mem_append.1 h with h | h
    · refine ⟨.rule e, congrArg (fun t => [t]) (List.mem_singleton.1 h).symm, ?_⟩
      exact ((Within.refl _).seq_right _).first
    · obtain ⟨f, hf, hwithin⟩ := moreItems_within rest h
      exact ⟨f, hf, hwithin.later⟩

/-- Every child of a list with separators comes from an item in it. -/
theorem separated_within {r : Rule} (d : DerivationTree (Phrase.separated (.rule r))) {t : Tree}
    (h : t ∈ d.kept) : ∃ e : DerivationTree (.rule r), e.kept = [t] ∧ e.Within d := by
  match d with
  | .seq (.rule e) rest =>
    rcases List.mem_append.1 h with h | h
    · refine ⟨.rule e, congrArg (fun t => [t]) (List.mem_singleton.1 h).symm, ?_⟩
      exact (Within.refl _).seq_left rest
    · obtain ⟨f, hf, hwithin⟩ := moreItems_within rest h
      exact ⟨f, hf, hwithin.seq_right _⟩

end DerivationTree

/-! ### The types in a method -/

theorem avoids_of_append {words : List String} {ts us : List Token}
    (h : Avoids words (ts ++ us)) : Avoids words ts := by
  intro t ht
  apply h
  rw [List.head?_append, Option.mem_def.1 ht]
  rfl

section

variable {f : DerivationTree (.rule .methodDecl)} {range : Option Range}
  {mark spelling name arguments : Tree} {text : List Char}

/-- Where the return type of a method comes from, and its arguments. Without a mark the method
starts with its type. -/
theorem exists_method_parts
    (hf : f.kept = [.node (.known .methodDecl) range [mark, spelling, name, arguments]]) :
    ∃ (s : DerivationTree (.rule .typeSpelling)) (a : DerivationTree (.maybe (.rule .arguments))),
      s.kept = [spelling] ∧ s.Within f ∧ a.kept = [arguments] ∧ a.Within f ∧
      (mark = .absent → f.Clear → Avoids ["static"] s.tokens) := by
  match f with
  | .rule (.seq (.seq (.seq (.seq (.seq (.seq k s) (.terminal n hn)) (.terminal l hl)) a)
      (.terminal r hr)) (.terminal e he)) =>
    obtain ⟨m, hm, -⟩ := builds_mark [] k rfl
    obtain ⟨t, hs, -⟩ := builds_spelling [] s
    obtain ⟨u, ha, -⟩ := builds_arguments [] a
    have hchildren : k.kept ++ s.kept ++ [n.tree] ++ [] ++ a.kept ++ [] ++ [] =
        [mark, spelling, name, arguments] := (Tree.node.inj (List.cons.inj hf).1).2.2
    rw [hm, hs, ha] at hchildren
    have hfour : [m, t, n.tree, u] = [mark, spelling, name, arguments] := hchildren
    cases hfour
    refine ⟨s, a, hs, ?_, ha, ?_, ?_⟩
    · exact (((((((Within.refl s).seq_right k).seq_left _).seq_left _).seq_left _).seq_left
        _).seq_left _).rule
    · exact ((((Within.refl a).seq_right _).seq_left _).seq_left _).rule
    · rintro rfl hclear
      match k with
      | .absent =>
        have htokens : s.tokens ++ [n] ++ [l] ++ a.tokens ++ [r] ++ [e] =
            s.tokens ++ ([n, l] ++ (a.tokens ++ [r, e])) := by
          simp only [List.append_assoc, List.cons_append, List.nil_append]
        have hall : Avoids ["static"] (s.tokens ++ [n] ++ [l] ++ a.tokens ++ [r] ++ [e]) := hclear.1
        rw [htokens] at hall
        exact avoids_of_append hall
      | .present (.terminal v hv) => cases (List.cons.inj hm).1

/-- Where the type of an argument comes from. -/
theorem exists_argument_parts {e : DerivationTree (.rule .argument)} {list initial : Tree}
    (he : e.kept = [.node (.known .argument) range [list, spelling, name, initial]]) :
    ∃ s : DerivationTree (.rule .typeSpelling), s.kept = [spelling] ∧ s.Within e := by
  match e with
  | .rule (.seq (.seq (.seq l s) (.terminal n hn)) i) =>
    obtain ⟨k, hl, -⟩ := builds_list? [] l
    obtain ⟨t, hs, -⟩ := builds_spelling [] s
    obtain ⟨v, hi, -⟩ := builds_initial [] i
    have hchildren : l.kept ++ s.kept ++ [n.tree] ++ i.kept = [list, spelling, name, initial] :=
      (Tree.node.inj (List.cons.inj he).1).2.2
    rw [hl, hs, hi] at hchildren
    have hfour : [k, t, n.tree, v] = [list, spelling, name, initial] := hchildren
    cases hfour
    exact ⟨s, hs, ((((Within.refl s).seq_right l).seq_left _).seq_left _).rule⟩

end

/-! ### Types that are kept as texts -/

/-- Where the text comes from that is kept of a type. The type is written with a stretch of the
words of the text, which starts with the qualifier if there is one, and what is kept are these words
with one space wherever there is layout between two of them. Without the qualifier the words are
read as the type, both as they are written and as they are kept. -/
inductive KeepsType (r : StartRule) (text : List Char) (node : Tree) (written : String) : Prop
  | words {front mark named behind : List Piece} {range : Range} {d : DataType} {isConst : Bool}
      (hpieces : (r.reading text).pieces.1 = front ++ ((mark ++ named) ++ behind))
      (hrange : node.range? = some range)
      (hcover : Range.ofTokens (tokensFrom (Position.start.advance (weave front []))
        (mark ++ named)) = some range)
      (hspelling : DenotesSpelling text node written d isConst)
      (hmark : mark.map Piece.terminal = if isConst then [kwConst] else [])
      (hwritten : written = String.ofList (tidied (mark ++ named)))
      (hplain : written = (if isConst then "const " else "") ++ String.ofList (tidied named))
      (hsource : parseRule .typeDecl (inner named) = .ok (ofType d))
      (hkept : parseRule .typeDecl (tidied named) = .ok (ofType d)) :
      KeepsType r text node written

/-- An argument keeps its type, also if it is written with the text that is kept. -/
inductive KeepsArgument (text : List Char) : Tree → Argument → Prop
  | argument {range : Option Range} {list spelling name initial : Tree} {a : Argument}
      (hkeeps : KeepsType .methodDecl text spelling a.type)
      (hagain : ∀ id : String, Pattern.IsName id.toList →
        parseRule .methodDecl (a.header id).toList =
          .ok (ofLeaf (.method ⟨"f", "void", [⟨id, a.type, none, []⟩], [], false⟩))) :
      KeepsArgument text (.node (.known .argument) range [list, spelling, name, initial]) a

inductive KeepArguments (text : List Char) : Tree → List Argument → Prop
  | absent : KeepArguments text .absent []
  | present {range : Option Range} {ts : List Tree} {as : List Argument}
      (h : List.Forall₂ (KeepsArgument text) ts as) :
      KeepArguments text (.node (.known .arguments) range ts) as

section

variable {r : StartRule} {text : List Char} {tree node : Tree} {written : String} {d : DataType}
  {isConst : Bool} {f : DerivationTree r.phrase} {s : DerivationTree (.rule .typeSpelling)}

/-- What a type that is written in a text is made of. -/
theorem exists_spelling_parts (hkept : s.kept = [node])
    (hspelling : DenotesSpelling text node written d isConst) :
    ∃ (mark : DerivationTree (.maybe (.terminal kwConst))) (e : DerivationTree .type) (m t : Tree)
      (range : Range), s = .rule (.seq mark e) ∧ mark.kept = [m] ∧ e.kept = [t] ∧
      Marks kwConst m isConst ∧ DenotesType t d ∧ node.range? = some range ∧
      Range.ofTokens s.tokens = some range ∧
      written = String.ofList (Layout.collapse (Build.slice text range)) := by
  match s with
  | .rule (.seq mark e) =>
    obtain ⟨m, hm, -⟩ := builds_mark [] mark rfl
    obtain ⟨t, -, -, ht, -⟩ := kept_type e
    have hnode : Tree.node (.known .typeSpelling) (Tree.cover (DerivationTree.seq mark e).pieces)
        (mark.kept ++ e.kept) = node := (List.cons.inj hkept).1
    rw [hm, ht] at hnode
    subst hnode
    generalize hcover : Tree.cover (DerivationTree.seq mark e).pieces = cover at hspelling
    cases hspelling with
    | @spelling range _ _ _ _ hmark htype =>
      refine ⟨mark, e, m, t, range, rfl, hm, ht, hmark, htype, rfl, ?_, rfl⟩
      rw [← hcover]
      exact (extends_tokens _).cover_eq (DerivationTree.seq mark e).extends_pieces

/-- The words of a type in a text that is read spell the type, and what is kept of the type is their
tidied text. -/
theorem exists_words (hread : r.read text = .ok tree) (hr : r.phrase.isClassless = true)
    (hclear : f.Clear) (htokens : f.tokens = tokensFrom .start (r.reading text).pieces.1)
    (hs : s.Within f) (hkept : s.kept = [node])
    (hspelling : DenotesSpelling text node written d isConst) :
    ∃ front stretch behind range,
      (r.reading text).pieces.1 = front ++ (stretch ++ behind) ∧
      s.tokens = tokensFrom (Position.start.advance (weave front [])) stretch ∧
      node.range? = some range ∧ Range.ofTokens s.tokens = some range ∧
      written = String.ofList (tidied stretch) ∧ Spells stretch d isConst := by
  obtain ⟨q, htrail, -⟩ := trail_of_run _ hread
  have hapart := htrail.apart (StartRule.ne_kwClass_of_read hr htokens)
  have hnodup := hapart.nodup_tokensFrom htrail.isGap_tail .start
  have hall := htrail.forall_pieces
  have hweave : weave (r.reading text).pieces.1 (r.reading text).pieces.2 = text :=
    Reading.weave_pieces (r.reading text)
  -- the words of the type are a stretch of the words of the text
  obtain ⟨ts, us, hts⟩ := hs.tokens
  obtain ⟨front, rest, hpieces, -, hrest⟩ := tokensFrom_eq_append (htokens.symm.trans hts)
  obtain ⟨stretch, behind, rfl, hstretch, -⟩ := tokensFrom_eq_append hrest
  rw [hpieces] at hapart hnodup hall hweave
  rw [tokensFrom_append, tokensFrom_append] at hnodup
  have hpart := hapart.of_append.2.of_append.1
  have hdistinct := (List.nodup_append.1 (List.nodup_append.1 hnodup).2.1).1
  have htype : ∀ x ∈ stretch, x.terminal.spellsType = true :=
    forall_terminal_of_tokensFrom (f := fun k => k.spellsType = true)
      (hstretch ▸ s.spellsType_tokens rfl)
  have hwords : TypeWords stretch := by
    intro x hx
    obtain ⟨hm, hg⟩ := hall x (List.mem_append_right front (List.mem_append_left behind hx))
    exact ⟨htype x hx, hm, hg⟩
  obtain ⟨mark, e, m, t, range, rfl, hm, ht, hmark, hd, hrange, hcover, hwritten⟩ :=
    exists_spelling_parts hkept hspelling
  have hslice := slice_ofTokens (hstretch.symm ▸ hcover) behind (r.reading text).pieces.2
  rw [hweave] at hslice
  rw [hslice, collapse_inner hwords] at hwritten
  refine ⟨front, stretch, behind, range, hpieces, hstretch.symm, hrange, hcover, hwritten, ?_⟩
  exact spells_of_derivation hstretch.symm (hs.clear hclear) hm ht hmark hd hpart hdistinct
    hwords.respaced (List.forall₂_same.2 fun _ _ => Iff.rfl) hwords

theorem keepsType_of_spells {front stretch behind : List Piece} {range : Range}
    (h : Spells stretch d isConst)
    (hpieces : (r.reading text).pieces.1 = front ++ (stretch ++ behind))
    (hrange : node.range? = some range)
    (hcover : Range.ofTokens (tokensFrom (Position.start.advance (weave front [])) stretch) =
      some range)
    (hspelling : DenotesSpelling text node written d isConst)
    (hwritten : written = String.ofList (tidied stretch)) : KeepsType r text node written := by
  obtain ⟨mark, named, rfl, hmark, htidied, hsource, hkept⟩ := h.exists_named
  refine .words hpieces hrange hcover hspelling hmark hwritten ?_ hsource hkept
  rw [hwritten, htidied, String.ofList_append]
  cases isConst <;> rfl

end

section

variable {text : List Char} {tree : Tree} {f : DerivationTree (.rule .methodDecl)}
  (hread : StartRule.methodDecl.read text = .ok tree) (hclear : f.Clear)
  (htokens : f.tokens = tokensFrom .start (StartRule.methodDecl.reading text).pieces.1)

include hread hclear htokens

theorem keepsArgument_of_denotes {e : DerivationTree (.rule .argument)} {t : Tree} {a : Argument}
    (he : e.kept = [t]) (hwithin : e.Within f) (h : DenotesArgument text t a) :
    KeepsArgument text t a := by
  cases h with
  | argument hl hs hn hv =>
    obtain ⟨s, hkept, hinner⟩ := exists_argument_parts he
    obtain ⟨front, stretch, behind, range, hpieces, hstokens, hrange, hcover, hwritten, hspells⟩ :=
      exists_words (r := .methodDecl) hread rfl hclear htokens (hinner.trans hwithin) hkept hs
    exact .argument (keepsType_of_spells hspells hpieces hrange (hstokens ▸ hcover) hs hwritten)
      fun id hid => hspells.parse_argument hid hwritten

theorem forall₂_keepsArgument {ts : List Tree} {as : List Argument}
    (hall : ∀ t ∈ ts, ∃ e : DerivationTree (.rule .argument), e.kept = [t] ∧ e.Within f)
    (h : List.Forall₂ (DenotesArgument text) ts as) :
    List.Forall₂ (KeepsArgument text) ts as := by
  induction h with
  | nil => exact .nil
  | cons ha _ ih =>
    obtain ⟨⟨e, he, hwithin⟩, hrest⟩ := List.forall_mem_cons.1 hall
    exact .cons (keepsArgument_of_denotes hread hclear htokens he hwithin ha) (ih hrest)

theorem keepArguments_of_denote {a : DerivationTree (.maybe (.rule .arguments))} {u : Tree}
    {as : List Argument} (ha : a.kept = [u]) (hwithin : a.Within f)
    (h : DenoteArguments text u as) : KeepArguments text u as := by
  cases h with
  | absent => exact .absent
  | present h =>
    match a with
    | .present (.rule items) =>
      have hitems := (Tree.node.inj (List.cons.inj ha).1).2.2
      have hlist : items.Within f := ((Within.refl items).rule.present).trans hwithin
      refine .present (forall₂_keepsArgument hread hclear htokens ?_ h)
      intro t ht
      obtain ⟨e, he, hinner⟩ := separated_within items (hitems ▸ ht)
      exact ⟨e, he, hinner.trans hlist⟩

end

/-- What is kept of the types of a method and of its arguments are the words of these types, with
one space wherever there is layout between two words. Written back as the type of a method or of an
argument the text is kept as it is. -/
theorem parseRule_method_types {text : List Char} {p : Part}
    (h : parseRule .methodDecl text = .ok p) :
    ∃ m range mark spelling name arguments, p = ofLeaf (.method m) ∧
      tokenize .methodDecl text =
        .ok (.node (.known .methodDecl) range [mark, spelling, name, arguments]) ∧
      Marks kwStatic mark m.isStatic ∧ KeepsType .methodDecl text spelling m.returns ∧
      (∀ id : String, Pattern.IsName id.toList → parseRule .methodDecl (m.header id).toList =
        .ok (ofLeaf (.method ⟨id, m.returns, [], [], m.isStatic⟩))) ∧
      KeepArguments text arguments m.arguments := by
  obtain ⟨tree, l, hread, hdenotes, rfl⟩ := denotes_of_parseRule h (builds_method text)
  obtain ⟨f, hclear, hfpieces, htokens⟩ := StartRule.exists_clear hread
  have hkept : f.kept = [tree] := kept_of_pieces (r := .methodDecl) f hfpieces
  cases hdenotes with
  | field =>
    match f with
    | .rule e => cases hkept
  | @method range mark spelling name arguments id written d isConst as isStatic hm hs hn ha =>
    obtain ⟨s, a, hskept, hswithin, hakept, hawithin, hfirst⟩ := exists_method_parts hkept
    obtain ⟨front, stretch, behind, range, hpieces, hstokens, hrange, hcover, hwritten, hspells⟩ :=
      exists_words (r := .methodDecl) hread rfl hclear htokens hswithin hskept hs
    have havoids : isStatic = false →
        Avoids ["static"] (tokensFrom (Position.start.advance (weave front [])) stretch) := by
      intro hstatic
      rw [← hstokens]
      refine hfirst ?_ hclear
      cases hm with
      | absent => rfl
      | present => cases hstatic
    refine ⟨_, _, mark, spelling, name, arguments, rfl, by rw [tokenize, hread], hm, ?_, ?_, ?_⟩
    · exact keepsType_of_spells hspells hpieces hrange (hstokens ▸ hcover) hs hwritten
    · exact fun id hid => hspells.parse_header hid hwritten havoids
    · exact keepArguments_of_denote hread hclear htokens hakept hawithin ha

/-- A method with comments and line ends in its types, and with words that touch. -/
theorem parseRule_method_types_commented :
    ∃ m : Method,
      parseRule .methodDecl
          "static const/**/A*/**/* f([p=1] Matrix \n< int >& a, ns :: B[] b = 2);".toList =
        .ok (ofLeaf (.method m)) ∧
      m.returns = "const A* *" ∧ m.arguments.map Argument.type = ["Matrix < int >&", "ns :: B[]"] ∧
      parseRule .methodDecl "static const A* * m();".toList =
        .ok (ofLeaf (.method ⟨"m", "const A* *", [], [], true⟩)) ∧
      ∃ node arguments,
        KeepsType .methodDecl
          "static const/**/A*/**/* f([p=1] Matrix \n< int >& a, ns :: B[] b = 2);".toList node
          "const A* *" ∧
        KeepArguments
          "static const/**/A*/**/* f([p=1] Matrix \n< int >& a, ns :: B[] b = 2);".toList arguments
          m.arguments := by
  have hok : (parseRule .methodDecl
      "static const/**/A*/**/* f([p=1] Matrix \n< int >& a, ns :: B[] b = 2);".toList).toOption.bind
        Part.leaf? =
      some (.method ⟨"f", "const A* *",
        [⟨"a", "Matrix < int >&", none, [⟨"p", some (.integer 1), false⟩]⟩,
          ⟨"b", "ns :: B[]", some (.integer 2), []⟩], [], true⟩) := by
    decide +kernel
  obtain ⟨p, hp⟩ := exists_ok_of_isSome (e := parseRule .methodDecl
    "static const/**/A*/**/* f([p=1] Matrix \n< int >& a, ns :: B[] b = 2);".toList)
    (by decide +kernel)
  obtain ⟨m, -, -, spelling, -, arguments, rfl, -, -, hkeeps, hagain, harguments⟩ :=
    parseRule_method_types hp
  rw [hp] at hok
  have hm : (ofLeaf (.method m)).leaf? = some (.method m) := Part.leaf?_ofLeaf (.method m)
  obtain rfl := Leaf.method.inj (Option.some.inj (hm.symm.trans hok))
  have hname : Pattern.IsName "m".toList := ⟨rfl, nofun⟩
  exact ⟨_, hp, rfl, rfl, hagain "m" hname, spelling, arguments, hkeeps, harguments⟩

end ClassLang
