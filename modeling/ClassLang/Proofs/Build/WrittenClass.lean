import ClassLang.Proofs.Build.WrittenValue

/-!
# Classes written back

A class that was read from a text can be written again: its text, with the list of its properties in
front and an empty body behind, is read back as the class without its members. Names that look like
keywords stand where they are not taken for them, as they did in the first text, and values are
written as literals for them. Only the infinities and numbers with an exponent have no literal. Main
statement: `parseRule_header`.
-/

namespace ClassLang

open Terminal Phrase ClassLang.Tree
open ClassLang.Part (ofClass)

/-! ### Values -/

/-- Whether the text of a value is a literal for it. -/
def Value.IsWritten (v : Value) : Prop :=
  ∃ k : Terminal, k.isLiteral = true ∧ k.Matches v.text.toList ∧
    Build.literal (.known k) v.text = .ok v

/-- The text of a value behind a name, if there is one. -/
def Value.assigned : Option Value → List Char
  | none => []
  | some v => "=".toList ++ v.text.toList

theorem Tree.DenotesValue.isWritten {text : List Char} {t : Tree} {v : Value}
    (h : DenotesValue t v) (hs : t.Sound text) (hv : ∀ x, v = .float x → x.IsPositional) :
    v.IsWritten := by
  obtain ⟨k, s, hk, hm, hliteral⟩ := h.exists_literal hs
  exact ⟨k, hk, Build.literal_text hm hliteral hv⟩

theorem covers_value {v : Value} (h : v.IsWritten) :
    (Phrase.rule .value).Covers v.text.toList (Single (DenotesValue · v)) := by
  obtain ⟨k, hk, hm, hliteral⟩ := h
  rw [← String.ofList_toList (s := v.text)] at hliteral
  exact covers_literal hk hm hliteral

theorem covers_initial {v : Option Value} (h : ∀ w ∈ v, w.IsWritten) :
    Phrase.initial.Covers (Value.assigned v) (Single (DenotesInitial · v)) := by
  cases v with
  | none =>
    refine covers_absent.imp ?_
    rintro _ rfl
    exact ⟨_, rfl, .absent⟩
  | some v =>
    have hvalue := (covers_value (h v rfl)).behind_sign (k := equals) (w := "=".toList) rfl rfl
      fun _ => trivial
    refine hvalue.present.imp ?_
    rintro _ ⟨t, rfl, ht⟩
    exact ⟨t, rfl, .present ht⟩

theorem delimits_assigned (v : Option Value) : Delimits (Value.assigned v) := by
  cases v with
  | none => exact delimits_nil
  | some v => exact delimits_sign (c := '=') rfl rfl (by decide)

/-! ### Properties -/

/-- Whether a property is well formed, with a value, if any, that has a literal for its text. -/
structure Property.IsWritten (p : Property) : Prop where
  wellFormed : p.WellFormed
  value : ∀ v ∈ p.value, v.IsWritten

theorem Tree.DenotesProperty.isWritten {text : List Char} {t : Tree} {p : Property}
    (h : DenotesProperty t p) (hs : t.Sound text)
    (hv : ∀ x, p.value = some (.float x) → x.IsPositional) : p.IsWritten := by
  refine ⟨h.wellFormed hs, ?_⟩
  cases h with
  | property hm hn hi =>
    cases hi with
    | absent => exact nofun
    | present hd =>
      rintro w hw
      obtain rfl := Option.some.inj hw
      have hinitial := hs.child _ (List.mem_cons_of_mem _ (List.mem_cons_of_mem _
        List.mem_cons_self))
      exact hd.isWritten hinitial fun x hx => hv x (congrArg some hx)

theorem Property.toList_text (p : Property) : p.text.toList =
    (if p.isMeta then "meta ".toList else []) ++ p.name.toList ++ Value.assigned p.value := by
  unfold Property.text Value.assigned
  cases p.isMeta <;> cases p.value <;>
    simp only [String.toList_append, if_true, Bool.false_eq_true, if_false, List.nil_append,
      List.append_nil, List.append_assoc]

theorem ne_nil_of_isName {name : List Char} (hn : Pattern.IsName name) : name ≠ [] :=
  Terminal.Matches.ne_nil (t := identifier) hn

theorem covers_name {name : String} (hn : Pattern.IsName name.toList) :
    (Phrase.terminal identifier).Covers name.toList (Single (IsName · name)) := by
  refine (covers_terminal (k := identifier) hn).imp ?_
  rintro _ ⟨range, rfl⟩
  exact ⟨_, rfl, range, by rw [String.ofList_toList]⟩

/-- The mark of a property and its name. -/
theorem covers_marked {name : String} (hn : Pattern.IsName name.toList) (isMeta : Bool) :
    propertyFront.Covers ((if isMeta then "meta ".toList else []) ++ name.toList) fun ts =>
        ∃ mark t, ts = [mark, t] ∧ Marks kwMeta mark isMeta ∧ t.IsName name := by
  have hname := covers_name hn
  cases isMeta with
  | false =>
    refine (covers_absent.seq hname joins_behind_mark (absurd rfl)).imp ?_
    rintro _ ⟨_, _, rfl, rfl, t, rfl, ht⟩
    exact ⟨_, t, rfl, .absent, ht⟩
  | true =>
    have hmark := (covers_terminal (k := kwMeta) (w := "meta".toList) rfl).present
    have hdelimits := delimits_spaced (k := identifier) hn List.prefix_rfl
    have hmarked := hmark.seq (hname.spaced (ne_nil_of_isName hn)) joins_behind_mark
      fun _ => hdelimits
    refine hmarked.imp ?_
    rintro _ ⟨_, _, rfl, ⟨range, rfl⟩, t, rfl, ht⟩
    exact ⟨_, t, rfl, .present, ht⟩

/-- A property without the mark starts with its name, and so with no word that is taken for it. -/
theorem avoids_mark {d : DerivationTree (Rule.phrase .property)} {mark t u : Tree} {name : String}
    {isMeta : Bool} (hkept : d.kept = [mark, t, u]) (hm : Marks kwMeta mark isMeta)
    (hn : t.IsName name) (hname : name = "meta" → isMeta = true) :
    DerivationTree.Avoids (DerivationTree.marks .property) d.tokens := by
  match d with
  | .seq (.seq (.present (.terminal k hk)) _) _ => exact Point.avoids_of_terminal hk (by decide)
  | .seq (.seq .absent (.terminal n hi)) i =>
    obtain ⟨rfl, hrest⟩ := List.cons.inj hkept
    obtain ⟨range, htree⟩ := hn
    have htext : n.text = name := (Tree.token.inj ((List.cons.inj hrest).1.trans htree)).2.1
    intro s hs _
    obtain rfl := Option.some.inj hs
    rw [htext]
    intro hmem
    cases hm
    cases hname (List.mem_singleton.1 hmem)

theorem covers_property {p : Property} (h : p.IsWritten) :
    (Phrase.rule .property).Covers p.text.toList (Single (DenotesProperty · p)) := by
  rw [p.toList_text]
  have hproperty := (covers_marked h.wellFormed.name p.isMeta).seq (covers_initial h.value)
    joins_behind_snoc fun _ => delimits_assigned p.value
  refine (Covers.marked (r := .property) hproperty ?_).imp ?_
  · rintro d ⟨_, _, hkept, ⟨mark, t, rfl, hm, hn⟩, u, rfl, -⟩
    exact avoids_mark hkept hm hn h.wellFormed.marked
  · rintro _ ⟨range, _, rfl, _, _, rfl, ⟨mark, t, rfl, hm, hn⟩, u, rfl, hu⟩
    exact ⟨_, rfl, .property hm hn hu⟩

/-- The text of a list of properties. -/
def Property.listed (ps : List Property) : String :=
  "[" ++ ", ".intercalate (ps.map Property.text) ++ "]"

/-- The text of a list of properties in front of a class, which has none without properties. -/
def Property.front (ps : List Property) : String :=
  if ps.isEmpty then "" else Property.listed ps ++ " "

theorem covers_list {ps : List Property} (hne : ps ≠ []) (h : ∀ p ∈ ps, p.IsWritten) :
    (Phrase.rule .properties).Covers (Property.listed ps).toList (Single (DenotesList · ps)) := by
  have hitems : ∀ p ∈ ps, p.text.toList ≠ [] ∧
      (Phrase.rule .property).Covers p.text.toList (Single (DenotesProperty · p)) := by
    intro p hp
    have hname := ne_nil_of_isName (h p hp).wellFormed.name
    refine ⟨?_, covers_property (h p hp)⟩
    rw [p.toList_text]
    exact List.append_ne_nil_of_left_ne_nil (List.append_ne_nil_of_right_ne_nil _ hname) _
  have hopened := (covers_separated hne hitems).behind_sign (k := leftBracket) (w := "[".toList)
    rfl rfl fun _ => trivial
  have hclosing := covers_sign (k := rightBracket) (w := "]".toList) rfl rfl
  have hlist := hopened.snoc hclosing (by decide) (delimits_sign (c := ']') rfl rfl (by decide))
  rw [Property.listed]
  simp only [String.toList_append, String.toList_intercalate, List.map_map]
  refine (Covers.rule (r := .properties) hlist rfl).imp ?_
  rintro _ ⟨range, us, rfl, hus⟩
  exact ⟨_, rfl, .list hus⟩

/-! ### Classes -/

/-- The text of a class without its members, behind the list of its properties. -/
def Class.header (c : Class) : String := Property.front c.properties ++ c.text ++ " \x7b\x7d"

/-- The keyword of a class behind the list of its properties, if it has any. -/
theorem covers_front {ps : List Property} (h : ∀ p ∈ ps, p.IsWritten) :
    (Phrase.seq (maybe (.rule .properties)) (.terminal kwClass)).Covers
      ((Property.front ps).toList ++ "class".toList) fun ts =>
        ∃ list keyword range, ts = [list, .token (.known kwClass) keyword range] ∧
          DenotesList? list ps := by
  have hkeyword := covers_terminal (k := kwClass) (w := "class".toList) rfl
  cases ps with
  | nil =>
    refine (covers_absent.seq hkeyword (joins_terminal (by decide)) (absurd rfl)).imp ?_
    rintro _ ⟨_, _, rfl, rfl, range, rfl⟩
    exact ⟨_, _, range, rfl, .absent⟩
  | cons p ps =>
    have hlist := (covers_list (List.cons_ne_nil p ps) h).present
    have hdelimits := delimits_spaced (k := kwClass) (w := "class".toList) rfl List.prefix_rfl
    have hfront := hlist.seq (hkeyword.spaced (by decide)) (joins_terminal (by decide))
      fun _ => hdelimits
    rw [Property.front, List.isEmpty_cons, if_neg Bool.false_ne_true, String.toList_append,
      List.append_assoc]
    refine hfront.imp ?_
    rintro _ ⟨_, _, rfl, ⟨list, rfl, hlist⟩, range, rfl⟩
    exact ⟨list, _, range, rfl, .present hlist⟩

/-- The text of the bases behind the name of a class. -/
def Class.inherited : List String → String
  | [] => ""
  | names => " : " ++ ", ".intercalate names

theorem Class.text_eq (c : Class) : c.text = "class " ++ c.name ++ Class.inherited c.bases := by
  unfold Class.text Class.inherited
  cases c.bases with
  | nil => exact (String.append_empty).symm
  | cons name names => simp only [String.append_assoc]

theorem Class.toList_inherited (name : String) (names : List String) :
    (Class.inherited (name :: names)).toList =
      ' ' :: ":".toList ++ ' ' :: ", ".toList.intercalate ((name :: names).map String.toList) := by
  rw [Class.inherited, String.toList_append, String.toList_intercalate]
  · rfl
  · exact List.cons_ne_nil name names

theorem delimits_bases (names : List String) : Delimits (Class.inherited names).toList := by
  cases names with
  | nil => exact delimits_nil
  | cons name names =>
    rw [Class.toList_inherited]
    exact delimits_spaced (k := colon) (w := ":".toList) rfl (List.prefix_append _ _)

theorem covers_bases {names : List String} (h : ∀ name ∈ names, Pattern.IsName name.toList) :
    (maybe (.rule .inheritance)).Covers (Class.inherited names).toList
      (Single (DenoteBases · names)) := by
  cases names with
  | nil =>
    refine covers_absent.imp ?_
    rintro _ rfl
    exact ⟨_, rfl, .absent⟩
  | cons name names =>
    have hfirst : identifier.Matches name.toList := h name List.mem_cons_self
    have hnames := covers_separated (List.cons_ne_nil name names) fun base hbase =>
      ⟨ne_nil_of_isName (h base hbase), covers_name (h base hbase)⟩
    obtain ⟨rest, hstart⟩ : ∃ rest, name.toList ++ rest =
        ", ".toList.intercalate ((name :: names).map String.toList) :=
      ⟨_, (intercalate_cons _ _).symm⟩
    have hne : ", ".toList.intercalate ((name :: names).map String.toList) ≠ [] := by
      rw [← hstart]
      exact List.append_ne_nil_of_left_ne_nil hfirst.ne_nil rest
    have hcolon := (covers_sign (k := colon) (w := ":".toList) rfl rfl).spaced (by decide)
    have hbases := hcolon.seq (hnames.spaced hne) joins_behind_terminal
      fun _ => delimits_spaced hfirst ⟨rest, hstart⟩
    rw [Class.toList_inherited]
    refine (Covers.rule (r := .inheritance) hbases rfl).present.imp ?_
    rintro _ ⟨range, _, rfl, _, us, rfl, rfl, hus⟩
    exact ⟨_, rfl, .present hus⟩

section

variable {c : Class} (hn : Pattern.IsName c.name.toList)
  (hb : ∀ base ∈ c.bases, Pattern.IsName base.toList) (hp : ∀ p ∈ c.properties, p.IsWritten)

include hn hb hp

theorem covers_head : (Phrase.seq classFront (maybe (.rule .inheritance))).Covers
    (Property.front c.properties ++ c.text).toList fun ts => ∃ list keyword range name bases,
      ts = [list, .token (.known kwClass) keyword range, name, bases] ∧
        DenotesList? list c.properties ∧ name.IsName c.name ∧ DenoteBases bases c.bases := by
  have hname := (covers_name hn).spaced (ne_nil_of_isName hn)
  have hfront := (covers_front hp).seq hname joins_behind_snoc
    fun _ => delimits_spaced (k := identifier) hn List.prefix_rfl
  have hhead := hfront.seq (covers_bases hb) joins_behind_snoc fun _ => delimits_bases c.bases
  have htext : c.text.toList =
      "class".toList ++ ' ' :: c.name.toList ++ (Class.inherited c.bases).toList := by
    rw [Class.text_eq, String.toList_append, String.toList_append]
    rfl
  rw [String.toList_append, htext]
  simp only [List.append_assoc] at hhead ⊢
  refine hhead.imp ?_
  rintro _ ⟨_, _, rfl, ⟨_, _, rfl, ⟨list, keyword, range, rfl, hlist⟩, name, rfl, hname⟩, bases,
    rfl, hbases⟩
  exact ⟨list, keyword, range, name, bases, rfl, hlist, hname, hbases⟩

theorem covers_class (text : List Char) : (Phrase.rule .classDecl).Covers c.header.toList
    (Single (DenotesClass text · ⟨c.name, c.bases, c.properties, ⟨[], []⟩⟩)) := by
  have hopening := (covers_sign (k := leftBrace) (w := "\x7b".toList) rfl rfl).spaced (by decide)
  have hopened := (covers_head hn hb hp).snoc hopening (by decide)
    (delimits_spaced (k := leftBrace) (w := "\x7b".toList) rfl List.prefix_rfl)
  have hbody := (covers_none (p := .rule .declaration)).rule (r := .body) rfl
  have hfilled := hopened.seq hbody joins_behind_snoc fun _ => delimits_nil
  have hclosing := covers_sign (k := rightBrace) (w := "\x7d".toList) rfl rfl
  have hclass := hfilled.snoc hclosing (by decide)
    (delimits_sign (c := '\x7d') rfl rfl (by decide))
  have htext : c.header.toList = (Property.front c.properties ++ c.text).toList ++
      ' ' :: "\x7b".toList ++ [] ++ "\x7d".toList := by
    rw [Class.header, String.toList_append, List.append_nil, List.append_assoc]
    rfl
  rw [htext]
  refine (Covers.rule (r := .classDecl) hclass rfl).imp ?_
  rintro _ ⟨range, _, rfl, _, _, rfl,
    ⟨list, keyword, range', name, bases, rfl, hlist, hname, hbases⟩, range'', _, rfl, rfl⟩
  exact ⟨_, rfl, .classDecl hlist hname hbases .nil⟩

end

/-- Properties that were read can be written, as long as their numbers can. -/
theorem Tree.DenotesList?.isWritten {text : List Char} {t : Tree} {ps : List Property}
    (h : DenotesList? t ps) (hs : t.Sound text)
    (hv : ∀ p ∈ ps, ∀ x, p.value = some (.float x) → x.IsPositional) : ∀ p ∈ ps, p.IsWritten := by
  cases h with
  | absent => exact nofun
  | present h =>
    cases h with
    | list h =>
      intro p hp
      exact forall_denoted h hs.child (fun _ _ hd hs hv => hd.isWritten hs hv) p hp (hv p hp)

/-- The text of a class that a tree denotes is read as the class without its members. -/
theorem Tree.DenotesClass.parse_header {text : List Char} {t : Tree} {c : Class}
    (h : DenotesClass text t c) (hs : t.Sound text) (hname : c.name.isEmpty = false)
    (hv : ∀ p ∈ c.properties, ∀ x, p.value = some (.float x) → x.IsPositional) :
    parseRule .classDecl c.header.toList =
      .ok (ofClass ⟨c.name, c.bases, c.properties, ⟨[], []⟩⟩) := by
  have hwell := h.wellFormed hs
  have hp : ∀ p ∈ c.properties, p.IsWritten := by
    cases h with
    | classDecl hl _ _ _ => exact hl.isWritten (hs.child _ List.mem_cons_self) hv
  obtain ⟨tree, hread, t', htree, hdenotes⟩ :=
    (covers_class hwell.name hwell.bases hp c.header.toList).read (r := .classDecl)
  obtain rfl := (List.cons.inj htree).1
  obtain ⟨site, hbuild⟩ := hdenotes.build
  rw [hname] at hbuild
  exact parseRule_of_build hread hbuild

/-- A class that is read from a text can be written back: its text, with the list of its properties
in front and an empty body behind, is read as the class with the same name, bases and properties and
without members. The numbers among the values of its properties have to be written without an
exponent; no other value is restricted. -/
theorem parseRule_header {text : List Char} {u : SourceUnit} (h : parse text = .ok u) :
    ∀ c ∈ u.classes, (∀ p ∈ c.properties, ∀ x, p.value = some (.float x) → x.IsPositional) →
      parseRule .classDecl c.header.toList =
        .ok (ofClass ⟨c.name, c.bases, c.properties, ⟨[], []⟩⟩) := by
  obtain ⟨range, ts, htree, hclasses⟩ := classes_of_parse h
  have hsound := (StartRule.sound_of_read (read_of_tokenize htree)).child
  intro c hc
  have hname := names_of_parse h c hc
  exact forall_denoted hclasses hsound
    (fun _ _ hd hs hname hv => hd.parse_header hs hname hv) c hc hname

/-- A class that is named like a keyword, with bases and properties named like others. -/
def namedLikeKeywords : List Char :=
  ("[meta meta,class = \"],//\\\"\", n=-007, Matrix = '6_5',x=0.50]" ++
    "class static/**/:const,Matrix\x7bint y;\x7d").toList

theorem parseRule_header_namedLikeKeywords :
    ∃ u c, parse namedLikeKeywords = .ok u ∧ c ∈ u.classes ∧
      c.header = "[meta meta, class=\"],//\\\"\", n=-7, Matrix='65', x=0.5] " ++
        "class static : const, Matrix \x7b\x7d" ∧
      parseRule .classDecl c.header.toList =
        .ok (ofClass ⟨c.name, c.bases, c.properties, ⟨[], []⟩⟩) := by
  have hok : (parse namedLikeKeywords).toOption.map (fun u => u.classes.map fun c =>
      (c.properties, c.header)) = some [([⟨"meta", none, true⟩,
        ⟨"class", some (.string "],//\\\""), false⟩, ⟨"n", some (.integer (-7)), false⟩,
        ⟨"Matrix", some (.char 65), false⟩, ⟨"x", some (.float ⟨0x3fe0000000000000⟩), false⟩],
        "[meta meta, class=\"],//\\\"\", n=-7, Matrix='65', x=0.5] " ++
          "class static : const, Matrix \x7b\x7d")] := by
    decide +kernel
  cases h : parse namedLikeKeywords with
  | error e =>
    rw [h] at hok
    cases hok
  | ok u =>
    rw [h] at hok
    obtain ⟨c, hc, hpair⟩ := List.map_eq_singleton_iff.1 (Option.some.inj hok)
    obtain ⟨hproperties, hheader⟩ := Prod.mk.inj hpair
    have hmem : c ∈ u.classes := hc ▸ List.mem_singleton_self c
    refine ⟨u, c, rfl, hmem, hheader, parseRule_header h c hmem ?_⟩
    rw [hproperties]
    intro p hp x hx
    simp only [List.mem_cons, List.not_mem_nil, or_false] at hp
    rcases hp with rfl | rfl | rfl | rfl | rfl <;> cases hx
    decide +kernel

end ClassLang
