import ClassLang.Proofs.Build.Building
import ClassLang.Proofs.Build.TypeText
import ClassLang.Proofs.Syntax.LaidReading

/-!
# Units of texts are well formed

What a text is parsed to holds only names, values and types that can be written in a text: every
name is one, every value has a literal, every type of a field is made of layers around a named type
or a primitive that has a name. The tokens of a tree belong to their terminals, and where a name
could be taken for a mark it is none (`Tree.Sound`); each part of a unit is denoted by a tree.
Main statement: `parse_wellFormed`.
-/

namespace ClassLang

open Terminal
open DerivationTree (Avoids marks)

/-! ### What can be written -/

/-- Whether a value has a literal. -/
def Value.WellFormed : Value → Prop
  | .default => False
  | .nullptr => True
  | .char b => b.toNat ≤ 255
  | .bool _ => True
  | .float x => x.isNaN = false
  | .string s => Pattern.IsStringBody s.toList
  | .integer _ => True

/-- A property that is named like its mark has the mark. -/
structure Property.WellFormed (p : Property) : Prop where
  name : Pattern.IsName p.name.toList
  marked : p.name = "meta" → p.isMeta = true
  value : ∀ v ∈ p.value, v.WellFormed

/-- Layers around a primitive that can be written, or around a type that is named by names other
than those of primitives. A pointer layer has one or two stars by itself. -/
def DataType.WellFormed : DataType → Prop
  | .primitive p => p ≠ .void
  | .named name =>
    (∃ parts : List String, parts ≠ [] ∧ (∀ part ∈ parts, Pattern.IsName part.toList) ∧
      name = "::".intercalate parts) ∧ name ∉ keywords.map Prod.fst
  | .array t => t.WellFormed
  | .matrix t => t.WellFormed
  | .pointer _ t => t.WellFormed
  | .reference t => t.WellFormed

structure Argument.WellFormed (a : Argument) : Prop where
  name : Pattern.IsName a.name.toList
  type : Pattern.IsTypeText a.type.toList
  value : ∀ v ∈ a.value, v.WellFormed
  properties : ∀ p ∈ a.properties, p.WellFormed

structure Field.WellFormed (f : Field) : Prop where
  name : Pattern.IsName f.name.toList
  type : f.type.WellFormed
  value : ∀ v ∈ f.value, v.WellFormed
  properties : ∀ p ∈ f.properties, p.WellFormed

structure Method.WellFormed (m : Method) : Prop where
  name : Pattern.IsName m.name.toList
  returns : Pattern.IsTypeText m.returns.toList
  arguments : ∀ a ∈ m.arguments, a.WellFormed
  properties : ∀ p ∈ m.properties, p.WellFormed

def Leaf.WellFormed : Leaf → Prop
  | .field f => f.WellFormed
  | .method m => m.WellFormed

inductive Declaration.WellFormed : Declaration → Prop
  | leaf {l : Leaf} (h : l.WellFormed) : WellFormed (.leaf l)
  | block {ps : List Property} {ds : List Declaration} (hp : ∀ p ∈ ps, p.WellFormed)
      (hd : ∀ d ∈ ds, WellFormed d) : WellFormed (.block ps ds)

/-- The properties of a class are its own, and its body has none beside them. -/
structure Class.WellFormed (c : Class) : Prop where
  name : Pattern.IsName c.name.toList
  bases : ∀ base ∈ c.bases, Pattern.IsName base.toList
  properties : ∀ p ∈ c.properties, p.WellFormed
  bare : c.body.properties = []
  inner : ∀ d ∈ c.body.inner, d.WellFormed

def SourceUnit.WellFormed (u : SourceUnit) : Prop := ∀ c ∈ u.classes, c.WellFormed

/-! ### Trees of texts -/

namespace Tree

variable {text : List Char}

/-- What holds of the nodes of a text beside their tokens: no unmarked property is named like the
mark, names of types have a part, and the text of a type is kept as one. -/
def Fits (text : List Char) : Rule → Option Range → List Tree → Prop
  | .property, _, ts => ∀ name range initial,
    ts = [.absent, .token (.known .identifier) name range, initial] → name ≠ "meta"
  | .typeName, _, ts => ts ≠ []
  | .typeSpelling, range, _ =>
    ∀ r ∈ range, Pattern.IsTypeText (Layout.collapse (Build.slice text r))
  | _, _, _ => True

/-- Whether every token in a tree belongs to its terminal, and every node fits. -/
inductive Sound (text : List Char) : Tree → Prop
  | absent : Sound text .absent
  | token {k : Terminal} {s : String} {range : Range} (hm : k.Matches s.toList) :
      Sound text (.token (.known k) s range)
  | node {r : Rule} {range : Option Range} {ts : List Tree} (hts : ∀ t ∈ ts, Sound text t)
      (hf : Fits text r range ts) : Sound text (.node (.known r) range ts)

theorem Sound.child {r : Rule} {range : Option Range} {ts : List Tree}
    (h : Sound text (.node (.known r) range ts)) : ∀ t ∈ ts, Sound text t := by
  cases h with
  | node hts _ => exact hts

theorem Sound.fits {r : Rule} {range : Option Range} {ts : List Tree}
    (h : Sound text (.node (.known r) range ts)) : Fits text r range ts := by
  cases h with
  | node _ hf => exact hf

theorem Sound.quadruple {r : Rule} {range : Option Range} {a b c d : Tree}
    (h : Sound text (.node (.known r) range [a, b, c, d])) :
    Sound text a ∧ Sound text b ∧ Sound text c ∧ Sound text d := by
  have hchild := h.child
  simp only [List.forall_mem_cons] at hchild
  obtain ⟨ha, hb, hc, hd, -⟩ := hchild
  exact ⟨ha, hb, hc, hd⟩

theorem spellingsAll_subset_close (k : Rule) (ps : List Tree) :
    spellingsAll ps ⊆ (close k ps).spellings := by
  intro r hr
  obtain ⟨t, ht, hmem⟩ := exists_of_mem_spellingsAll hr
  have hkept : t ∈ ps.filter fun t => !t.isPunctuation := by
    cases t with
    | node => exact List.mem_filter.2 ⟨ht, rfl⟩
    | token => cases hmem
    | absent => cases hmem
  exact spellingsAll_subset_node (.known k) _ _ (spellings_subset_all hkept hmem)

end Tree

namespace DerivationTree

variable {text : List Char}

theorem fits_property (d : DerivationTree (Rule.phrase .property))
    (hc : Avoids (marks .property) d.tokens) :
    Tree.Fits text .property (Tree.cover d.pieces)
      (d.pieces.filter fun t => !t.isPunctuation) := by
  intro name range initial hts
  match d with
  | .seq (.seq .absent (.terminal n hn)) i =>
    have hkept : ([Tree.absent] ++ [n.tree] ++ i.pieces).filter (fun t => !t.isPunctuation) =
        .absent :: n.tree :: i.pieces.filter fun t => !t.isPunctuation := by
      rw [Token.tree, hn]
      rfl
    have hname := (List.cons.inj (List.cons.inj (hkept.symm.trans hts)).2).1
    obtain ⟨-, rfl, -⟩ := Tree.token.inj hname
    exact fun heq => hc n rfl hn (List.mem_singleton.2 heq)
  | .seq (.seq (.present (.terminal k hk)) n) i =>
    have hkept : ([k.tree] ++ n.pieces ++ i.pieces).filter (fun t => !t.isPunctuation) =
        k.tree :: (n.pieces ++ i.pieces).filter fun t => !t.isPunctuation := by
      rw [Token.tree, hk]
      rfl
    cases (List.cons.inj (hkept.symm.trans hts)).1

theorem fits_typeName (d : DerivationTree (Rule.phrase .typeName)) :
    Tree.Fits text .typeName (Tree.cover d.pieces)
      (d.pieces.filter fun t => !t.isPunctuation) := by
  match d with
  | .seq (.terminal n hn) e =>
    have hkept : n.tree ∈ ([n.tree] ++ e.pieces).filter fun t => !t.isPunctuation := by
      refine List.mem_filter.2 ⟨List.mem_cons_self, ?_⟩
      rw [Token.tree, hn]
      rfl
    exact List.ne_nil_of_mem hkept

theorem fits_of_avoids {r : Rule} (d : DerivationTree r.phrase)
    (hc : Avoids (marks r) d.tokens)
    (hs : ∀ range ∈ (Tree.close r d.pieces).spellings,
      Pattern.IsTypeText (Layout.collapse (Build.slice text range))) :
    Tree.Fits text r (Tree.cover d.pieces) (d.pieces.filter fun t => !t.isPunctuation) := by
  cases r with
  | property => exact fits_property d hc
  | typeName => exact fits_typeName d
  | typeSpelling =>
    intro range hrange
    refine hs range ?_
    rw [Tree.close, Tree.spellings]
    exact List.mem_append_left _ (Option.mem_toList.2 hrange)
  | _ => trivial

/-- The tree of a clear derivation is sound. -/
theorem sound_of_clear {p : Phrase} (d : DerivationTree p) (hc : d.Clear)
    (hm : ∀ t ∈ d.tokens, t.terminal.Matches t.text.toList)
    (hs : ∀ r ∈ Tree.spellingsAll d.pieces,
      Pattern.IsTypeText (Layout.collapse (Build.slice text r))) :
    ∀ t ∈ d.pieces, t.Sound text := by
  induction d with
  | terminal t h => exact List.forall_mem_singleton.2 (.token (hm t List.mem_cons_self))
  | @rule r d ih =>
    have hclose : ∀ range ∈ (Tree.close r d.pieces).spellings,
        Pattern.IsTypeText (Layout.collapse (Build.slice text range)) :=
      fun range hrange => hs range (List.mem_append_left _ hrange)
    have hpieces := ih hc.2 hm fun range hrange =>
      hclose range (Tree.spellingsAll_subset_close r d.pieces hrange)
    refine List.forall_mem_singleton.2 (.node ?_ (d.fits_of_avoids hc.1 hclose))
    exact fun t ht => hpieces t (List.mem_filter.1 ht).1
  | type d ih => exact ih hc hm hs
  | seq d e ihd ihe =>
    rw [tokens] at hm
    rw [pieces, Tree.spellingsAll_append] at hs
    obtain ⟨hmd, hme⟩ := List.forall_mem_append.1 hm
    obtain ⟨hsd, hse⟩ := List.forall_mem_append.1 hs
    exact List.forall_mem_append.2 ⟨ihd hc.1 hmd hsd, ihe hc.2.1 hme hse⟩
  | left d ih => exact ih hc hm hs
  | right d ih => exact ih hc hm hs
  | absent => exact List.forall_mem_singleton.2 .absent
  | present d ih => exact ih hc hm hs
  | none => exact fun _ ht => absurd ht List.not_mem_nil
  | more d e ihd ihe =>
    rw [tokens] at hm
    rw [pieces, Tree.spellingsAll_append] at hs
    obtain ⟨hmd, hme⟩ := List.forall_mem_append.1 hm
    obtain ⟨hsd, hse⟩ := List.forall_mem_append.1 hs
    exact List.forall_mem_append.2 ⟨ihd hc.1 hmd hsd, ihe hc.2.1 hme hse⟩

end DerivationTree

theorem StartRule.sound_of_read {r : StartRule} {text : List Char} {tree : Tree}
    (h : r.read text = .ok tree) : tree.Sound text := by
  obtain ⟨q, htrail, -⟩ := trail_of_run _ h
  obtain ⟨d, hclear, hpieces, htokens⟩ := exists_clear h
  have hmatches : ∀ t ∈ d.tokens, t.terminal.Matches t.text.toList := by
    have hstart : Position.start = Position.start.advance [] := rfl
    rw [htokens]
    exact fun t ht => (htrail.spread.standsIn hstart t ht).isMatch
  have hspelled : ∀ s ∈ Tree.spellingsAll d.pieces,
      Pattern.IsTypeText (Layout.collapse (Build.slice text s)) := by
    rw [hpieces, Tree.spellingsAll, Tree.spellingsAll, List.append_nil]
    exact fun s => isTypeText_of_read h
  exact d.sound_of_clear hclear hmatches hspelled tree (hpieces ▸ List.mem_singleton_self tree)

/-! ### What sound trees denote -/

namespace Tree

variable {text : List Char} {t : Tree}

/-- What trees denote each is well formed if what each of them denotes is. -/
theorem forall_denoted {α : Type} {denotes : Tree → α → Prop} {P : α → Prop} {ts : List Tree}
    {as : List α} (h : List.Forall₂ denotes ts as) (hs : ∀ t ∈ ts, t.Sound text)
    (hp : ∀ t a, denotes t a → t.Sound text → P a) : ∀ a ∈ as, P a := by
  induction h with
  | nil => exact nofun
  | cons ht _ ih =>
    obtain ⟨hhead, htail⟩ := List.forall_mem_cons.1 hs
    exact List.forall_mem_cons.2 ⟨hp _ _ ht hhead, ih htail⟩

theorem IsName.wellFormed {name : String} (h : t.IsName name) (hs : t.Sound text) :
    Pattern.IsName name.toList := by
  obtain ⟨range, rfl⟩ := h
  cases hs with
  | token hm => exact hm

theorem inside_of_isString {s : String} {body : List Char}
    (h : s.toList = '\x22' :: (body ++ ['\x22'])) : (Build.inside s).toList = body := by
  rw [Build.inside, String.toList_ofList, h, List.drop_one, List.tail_cons, List.dropLast_concat]

theorem wellFormed_of_ofByte? {n : Int} {v : Value} (h : Value.ofByte? n = some v) :
    v.WellFormed := by
  unfold Value.ofByte? at h
  split at h
  · obtain rfl := Option.some.inj h
    exact Nat.le_of_lt_succ (UInt8.toNat_lt _)
  · cases h

theorem wellFormed_of_literal {k : Terminal} {s : String} {v : Value} (hm : k.Matches s.toList)
    (h : Build.literal (.known k) s = .ok v) : v.WellFormed := by
  cases k with
  | bool =>
    simp only [Build.literal] at h
    split at h
    · obtain rfl := Except.ok.inj h
      trivial
    · cases h
  | char =>
    simp only [Build.literal] at h
    split at h
    · cases h
    · split at h
      · rename_i n _ w hw
        obtain rfl := Except.ok.inj h
        exact wellFormed_of_ofByte? hw
      · cases h
  | float =>
    obtain ⟨x, hx, hnumber⟩ := Numeral.float_of_isFloat hm
    simp only [Build.literal, hx, Except.ok.injEq] at h
    subst h
    exact hnumber
  | integer =>
    simp only [Build.literal] at h
    split at h
    · cases h
    · obtain rfl := Except.ok.inj h
      trivial
  | string =>
    obtain ⟨body, hbody, hs⟩ := hm
    obtain rfl := Except.ok.inj h
    rw [Value.WellFormed, inside_of_isString hs]
    exact hbody
  | kwNullptr =>
    obtain rfl := Except.ok.inj h
    trivial
  | _ => cases h

theorem DenotesValue.wellFormed {v : Value} (h : DenotesValue t v) (hs : t.Sound text) :
    v.WellFormed := by
  cases h with
  | literal h =>
    cases hs.child _ List.mem_cons_self with
    | token hm => exact wellFormed_of_literal hm h

theorem DenotesInitial.wellFormed {v : Option Value} (h : DenotesInitial t v)
    (hs : t.Sound text) : ∀ w ∈ v, w.WellFormed := by
  cases h with
  | absent => exact nofun
  | present h =>
    intro w hw
    obtain rfl := Option.some.inj hw
    exact h.wellFormed hs

theorem DenotesProperty.wellFormed {p : Property} (h : DenotesProperty t p)
    (hs : t.Sound text) : p.WellFormed := by
  cases h with
  | property hm hn hv =>
    have hname := hs.child _ (List.mem_cons_of_mem _ List.mem_cons_self)
    have hinitial := hs.child _ (List.mem_cons_of_mem _ (List.mem_cons_of_mem _
      List.mem_cons_self))
    refine ⟨hn.wellFormed hname, ?_, hv.wellFormed hinitial⟩
    intro hmeta
    cases hm with
    | present => rfl
    | absent =>
      obtain ⟨range, rfl⟩ := hn
      exact absurd hmeta (hs.fits _ _ _ rfl)

theorem DenotesList.wellFormed {ps : List Property} (h : DenotesList t ps)
    (hs : t.Sound text) : ∀ p ∈ ps, p.WellFormed := by
  cases h with
  | list h => exact forall_denoted h hs.child fun _ _ => DenotesProperty.wellFormed

theorem DenotesList?.wellFormed {ps : List Property} (h : DenotesList? t ps)
    (hs : t.Sound text) : ∀ p ∈ ps, p.WellFormed := by
  cases h with
  | absent => exact nofun
  | present h => exact h.wellFormed hs

theorem DenoteLists.wellFormed {ts : List Tree} {ps : List Property} (h : DenoteLists ts ps)
    (hs : ∀ t ∈ ts, t.Sound text) : ∀ p ∈ ps, p.WellFormed := by
  obtain ⟨pss, hpss, rfl⟩ := h
  intro p hp
  obtain ⟨qs, hqs, hp⟩ := List.mem_flatten.1 hp
  exact forall_denoted hpss hs (fun _ _ => DenotesList.wellFormed) qs hqs p hp

theorem wellFormed_ofName {names : List String} (hne : names ≠ [])
    (h : ∀ name ∈ names, Pattern.IsName name.toList) :
    (DataType.ofName ("::".intercalate names)).WellFormed := by
  have hvoid : ∀ pair ∈ DataType.keywords, pair.2 ≠ .void := by decide
  generalize hname : "::".intercalate names = name
  unfold DataType.ofName
  split
  · rename_i p hp
    obtain ⟨before, after, hkeywords, -⟩ := List.lookup_eq_some_iff.1 hp
    exact hvoid (name, p) (hkeywords ▸ List.mem_append_right before List.mem_cons_self)
  · rename_i hnone
    refine ⟨⟨names, hne, h, hname.symm⟩, ?_⟩
    intro hmem
    obtain ⟨pair, hpair, hfirst⟩ := List.mem_map.1 hmem
    have hother := List.lookup_eq_none_iff.1 hnone pair hpair
    exact bne_iff_ne.1 hother hfirst.symm

theorem DenotesType.wellFormed {d : DataType} (h : DenotesType t d) (hs : t.Sound text) :
    d.WellFormed := by
  induction h with
  | name h =>
    refine wellFormed_ofName ?_ (forall_denoted h hs.child fun _ _ => IsName.wellFormed)
    rintro rfl
    cases h
    exact hs.fits rfl
  | pointer _ ih => exact ih (hs.child _ List.mem_cons_self)
  | doublePointer _ ih => exact ih (hs.child _ List.mem_cons_self)
  | reference _ ih => exact ih (hs.child _ List.mem_cons_self)
  | array _ ih => exact ih (hs.child _ List.mem_cons_self)
  | matrix _ ih => exact ih (hs.child _ (List.mem_cons_of_mem _ List.mem_cons_self))

theorem DenotesSpelling.wellFormed {written : String} {d : DataType} {isConst : Bool}
    (h : DenotesSpelling text t written d isConst) (hs : t.Sound text) :
    Pattern.IsTypeText written.toList ∧ d.WellFormed := by
  cases h with
  | spelling hm ht =>
    refine ⟨?_, ht.wellFormed (hs.child _ (List.mem_cons_of_mem _ List.mem_cons_self))⟩
    rw [String.toList_ofList]
    exact hs.fits _ rfl

/-! ### Declarations and classes -/

theorem DenotesArgument.wellFormed {a : Argument} (h : DenotesArgument text t a)
    (hs : t.Sound text) : a.WellFormed := by
  cases h with
  | argument hl hspelled hn hv =>
    obtain ⟨hlist, hspelling, hname, hinitial⟩ := hs.quadruple
    exact ⟨hn.wellFormed hname, (hspelled.wellFormed hspelling).1, hv.wellFormed hinitial,
      hl.wellFormed hlist⟩

theorem DenoteArguments.wellFormed {as : List Argument} (h : DenoteArguments text t as)
    (hs : t.Sound text) : ∀ a ∈ as, a.WellFormed := by
  cases h with
  | absent => exact nofun
  | present h => exact forall_denoted h hs.child fun _ _ => DenotesArgument.wellFormed

theorem DenotesMember.wellFormed {ps : List Property} {l : Leaf}
    (h : DenotesMember text ps t l) (hp : ∀ p ∈ ps, p.WellFormed) (hs : t.Sound text) :
    l.WellFormed := by
  cases h with
  | field hm hspelled hn hv =>
    obtain ⟨-, hspelling, hname, hinitial⟩ := hs.quadruple
    exact ⟨hn.wellFormed hname, (hspelled.wellFormed hspelling).2, hv.wellFormed hinitial, hp⟩
  | method hm hspelled hn ha =>
    obtain ⟨-, hspelling, hname, harguments⟩ := hs.quadruple
    exact ⟨hn.wellFormed hname, (hspelled.wellFormed hspelling).1, ha.wellFormed harguments, hp⟩

mutual

theorem DenotesDeclaration.wellFormed : (d : Declaration) → {t : Tree} →
    DenotesDeclaration text t d → t.Sound text → d.WellFormed
  | .leaf l, _, h, hs => by
    cases h with
    | leaf hl hm =>
      obtain ⟨hlists, hmember⟩ := List.forall_mem_append.1 hs.child
      exact .leaf (hm.wellFormed (hl.wellFormed hlists) (hmember _ List.mem_cons_self))
  | .block ps ds, _, h, hs => by
    cases h with
    | block hl hi =>
      obtain ⟨hlists, hblock⟩ := List.forall_mem_append.1 hs.child
      have hinner := ((hblock _ List.mem_cons_self).child _ List.mem_cons_self).child
      exact .block (hl.wellFormed hlists) (DenoteDeclarations.wellFormed ds hi hinner)

theorem DenoteDeclarations.wellFormed : (ds : List Declaration) → {ts : List Tree} →
    List.Forall₂ (DenotesDeclaration text) ts ds → (∀ t ∈ ts, t.Sound text) →
    ∀ d ∈ ds, d.WellFormed
  | [], _, _, _ => nofun
  | d :: ds, _, h, hs => by
    cases h with
    | cons hd hds =>
      obtain ⟨ht, hts⟩ := List.forall_mem_cons.1 hs
      exact List.forall_mem_cons.2 ⟨DenotesDeclaration.wellFormed d hd ht,
        DenoteDeclarations.wellFormed ds hds hts⟩

end

theorem DenoteBases.wellFormed {names : List String} (h : DenoteBases t names)
    (hs : t.Sound text) : ∀ name ∈ names, Pattern.IsName name.toList := by
  cases h with
  | absent => exact nofun
  | present h => exact forall_denoted h hs.child fun _ _ => IsName.wellFormed

theorem DenotesClass.wellFormed {c : Class} (h : DenotesClass text t c) (hs : t.Sound text) :
    c.WellFormed := by
  cases h with
  | classDecl hl hn hb hi =>
    have hchild := hs.child
    simp only [List.forall_mem_cons] at hchild
    obtain ⟨hlist, -, hname, hbases, hbody, -⟩ := hchild
    exact ⟨hn.wellFormed hname, hb.wellFormed hbases, hl.wellFormed hlist, rfl,
      DenoteDeclarations.wellFormed _ hi hbody.child⟩

end Tree

/-- Every unit that a text is parsed to is well formed, whatever the text. -/
theorem parse_wellFormed {text : List Char} {u : SourceUnit} (h : parse text = .ok u) :
    u.WellFormed := by
  obtain ⟨range, ts, htree, hclasses⟩ := classes_of_parse h
  have hsound := StartRule.sound_of_read (read_of_tokenize htree)
  exact Tree.forall_denoted hclasses hsound.child fun _ _ => Tree.DenotesClass.wellFormed

/-- A class with every kind of declaration, and types that are written in unusual ways. -/
def variedClass : List Char :=
  ("[meta meta, a=\"b\"] class A : B \x7b static A::int*[] x = '7';".toList ++
    "[p] \x7b const /* */ A\t& f(Matrix< int > y = -1.5); \x7d \x7d".toList)

theorem parse_wellFormed_variedClass : ∃ u, parse variedClass = .ok u ∧ u.WellFormed := by
  have hok : (parse variedClass).toOption.isSome = true := by decide +kernel
  obtain ⟨u, h⟩ := exists_ok_of_isSome hok
  exact ⟨u, h, parse_wellFormed h⟩

end ClassLang
