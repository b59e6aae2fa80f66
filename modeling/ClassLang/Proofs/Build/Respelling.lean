import ClassLang.Proofs.Build.Denotation
import ClassLang.Proofs.Syntax.Relocation

/-!
# The same trees in another text

What a tree denotes does not depend on where it stands, apart from the types of arguments and the
return types of methods: these are kept as they were written, so they follow the text. A tree that
is relocated into another text denotes there the same up to these spellings, and exactly the same
if every spelling in it is the same there.
-/

namespace ClassLang

/-! ### Declarations with other spellings -/

section

variable (f : String → String)

def Argument.respell (a : Argument) : Argument := { a with type := f a.type }

def Method.respell (m : Method) : Method :=
  { m with returns := f m.returns, arguments := m.arguments.map (Argument.respell f) }

def Leaf.respell : Leaf → Leaf
  | .field g => .field g
  | .method m => .method (m.respell f)

mutual

def Declaration.respell : Declaration → Declaration
  | .leaf l => .leaf (l.respell f)
  | .block ps inner => .block ps (respellAll inner)

def Declaration.respellAll : List Declaration → List Declaration
  | [] => []
  | d :: ds => d.respell :: respellAll ds

end

def Block.respell (b : Block) : Block := { b with inner := Declaration.respellAll f b.inner }

def Class.respell (c : Class) : Class := { c with body := c.body.respell f }

/-- The unit with every type that is kept as it was written spelled another way. -/
def SourceUnit.respell (u : SourceUnit) : SourceUnit := ⟨u.classes.map (Class.respell f)⟩

end

theorem map_eq_self {α : Type} {f : α → α} (hf : ∀ a, f a = a) (as : List α) : as.map f = as := by
  rw [funext hf, List.map_id']

theorem Argument.respell_id (a : Argument) : a.respell id = a := rfl

theorem Leaf.respell_id (l : Leaf) : l.respell id = l := by
  cases l with
  | field g => rfl
  | method m => rw [respell, Method.respell, map_eq_self Argument.respell_id]; rfl

mutual

theorem Declaration.respell_id : (d : Declaration) → d.respell id = d
  | .leaf l => congrArg Declaration.leaf l.respell_id
  | .block ps inner => congrArg (Declaration.block ps) (respellAll_id inner)

theorem Declaration.respellAll_id : (ds : List Declaration) → respellAll id ds = ds
  | [] => rfl
  | d :: ds => by rw [respellAll, respell_id d, respellAll_id ds]

end

theorem Class.respell_id (c : Class) : c.respell id = c := by
  rw [respell, Block.respell, Declaration.respellAll_id]

theorem SourceUnit.respell_id (u : SourceUnit) : u.respell id = u := by
  rw [respell, map_eq_self Class.respell_id]

/-! ### Spellings in a tree -/

/-- What is kept of a type that is written at a range. -/
def Build.written (text : List Char) (r : Range) : String :=
  String.ofList (Layout.collapse (slice text r))

namespace Tree

mutual

/-- The ranges of the types that are written in a tree. -/
def spellings : Tree → List Range
  | node (.known .typeSpelling) range ts => range.toList ++ spellingsAll ts
  | node _ _ ts => spellingsAll ts
  | token _ _ _ => []
  | absent => []

def spellingsAll : List Tree → List Range
  | [] => []
  | t :: ts => t.spellings ++ spellingsAll ts

end

theorem spellingsAll_append (ts us : List Tree) :
    spellingsAll (ts ++ us) = spellingsAll ts ++ spellingsAll us := by
  induction ts with
  | nil => rfl
  | cons t ts ih => rw [List.cons_append, spellingsAll, spellingsAll, ih, List.append_assoc]

theorem exists_of_mem_spellingsAll {ts : List Tree} {r : Range} (h : r ∈ spellingsAll ts) :
    ∃ t ∈ ts, r ∈ t.spellings := by
  induction ts with
  | nil => cases h
  | cons t ts ih =>
    rw [spellingsAll] at h
    rcases List.mem_append.1 h with h | h
    · exact ⟨t, List.mem_cons_self, h⟩
    · obtain ⟨u, hu, hr⟩ := ih h
      exact ⟨u, List.mem_cons_of_mem t hu, hr⟩

theorem spellings_subset_all {t : Tree} {ts : List Tree} (ht : t ∈ ts) :
    t.spellings ⊆ spellingsAll ts := by
  induction ts with
  | nil => cases ht
  | cons u ts ih =>
    rw [spellingsAll]
    rcases List.mem_cons.1 ht with rfl | ht
    · exact List.subset_append_left _ _
    · exact List.Subset.trans (ih ht) (List.subset_append_right _ _)

theorem spellingsAll_subset_node (rule : Label Rule) (range : Option Range) (ts : List Tree) :
    spellingsAll ts ⊆ (node rule range ts).spellings := by
  by_cases hr : rule = .known .typeSpelling
  · subst hr
    rw [spellings]
    exact List.subset_append_right _ _
  · rw [spellings]
    · exact List.Subset.refl _
    · exact hr

/-- Whether the spellings in a tree are the same, up to a function on spellings, where the tree is
relocated into another text. -/
def Faithful (f : String → String) (text text' : List Char) (m : Relocation) (t : Tree) : Prop :=
  ∀ r ∈ t.spellings, f (Build.written text' (r.relocate m)) = f (Build.written text r)

namespace Faithful

variable {f : String → String} {text text' : List Char} {m : Relocation}

theorem child {rule : Label Rule} {range : Option Range} {ts : List Tree}
    (h : Faithful f text text' m (node rule range ts)) : ∀ t ∈ ts, Faithful f text text' m t := by
  intro t ht r hr
  exact h r (spellingsAll_subset_node rule range ts (spellings_subset_all ht hr))

end Faithful

/-! ### What relocated trees denote -/

variable {m : Relocation} {t : Tree}

theorem forall₂_relocate {α : Type} {denotes : Tree → α → Prop} {ts : List Tree} {as : List α}
    (h : List.Forall₂ denotes ts as) (hr : ∀ t a, denotes t a → denotes (t.relocate m) a) :
    List.Forall₂ denotes (ts.map (relocate m)) as := by
  rw [List.forall₂_map_left_iff]
  exact h.imp hr

theorem IsName.relocate {name : String} (h : t.IsName name) : (t.relocate m).IsName name := by
  obtain ⟨range, rfl⟩ := h
  exact ⟨range.relocate m, rfl⟩

theorem Marks.relocate {k : Terminal} {b : Bool} (h : Marks k t b) :
    Marks k (t.relocate m) b := by
  cases h with
  | absent => exact .absent
  | present => exact .present

theorem DenotesValue.relocate {v : Value} (h : DenotesValue t v) :
    DenotesValue (t.relocate m) v := by
  cases h with
  | literal h => exact .literal h

theorem DenotesInitial.relocate {v : Option Value} (h : DenotesInitial t v) :
    DenotesInitial (t.relocate m) v := by
  cases h with
  | absent => exact .absent
  | present h => exact .present h.relocate

theorem DenotesProperty.relocate {p : Property} (h : DenotesProperty t p) :
    DenotesProperty (t.relocate m) p := by
  cases h with
  | property hm hn hv => exact .property hm.relocate hn.relocate hv.relocate

theorem DenotesList.relocate {ps : List Property} (h : DenotesList t ps) :
    DenotesList (t.relocate m) ps := by
  cases h with
  | list h =>
    rw [relocate_node]
    exact .list (forall₂_relocate h fun _ _ => DenotesProperty.relocate)

theorem DenotesList?.relocate {ps : List Property} (h : DenotesList? t ps) :
    DenotesList? (t.relocate m) ps := by
  cases h with
  | absent => exact .absent
  | present h => exact .present h.relocate

theorem DenoteLists.relocate {ts : List Tree} {ps : List Property} (h : DenoteLists ts ps) :
    DenoteLists (ts.map (Tree.relocate m)) ps := by
  obtain ⟨pss, hpss, rfl⟩ := h
  exact ⟨pss, forall₂_relocate hpss fun _ _ => DenotesList.relocate, rfl⟩

theorem DenotesType.relocate {d : DataType} (h : DenotesType t d) :
    DenotesType (t.relocate m) d := by
  induction h with
  | name h =>
    rw [relocate_node]
    exact .name (forall₂_relocate h fun _ _ => IsName.relocate)
  | pointer _ ih => exact .pointer ih
  | doublePointer _ ih => exact .doublePointer ih
  | reference _ ih => exact .reference ih
  | array _ ih => exact .array ih
  | matrix _ ih => exact .matrix ih

theorem DenoteBases.relocate {names : List String} (h : DenoteBases t names) :
    DenoteBases (t.relocate m) names := by
  cases h with
  | absent => exact .absent
  | present h =>
    rw [relocate_node]
    exact .present (forall₂_relocate h fun _ _ => IsName.relocate)

section

variable {f : String → String} {text text' : List Char}

/-- A written type is the same type elsewhere, in the spelling that stands there. -/
theorem DenotesSpelling.relocate {written : String} {d : DataType} {isConst : Bool}
    (h : DenotesSpelling text t written d isConst) (hf : Faithful f text text' m t) :
    ∃ written', DenotesSpelling text' (t.relocate m) written' d isConst ∧
      f written' = f written := by
  cases h with
  | @spelling range mark type _ _ hm ht =>
    have hr := hf range (by rw [spellings]; exact List.mem_append_left _ List.mem_cons_self)
    exact ⟨_, .spelling hm.relocate ht.relocate, hr⟩

/-- Trees that each denote the same elsewhere up to spelling do so together. -/
theorem forall₂_respell {α : Type} {denotes denotes' : Tree → α → Prop} {respell : α → α}
    {ts : List Tree} {as : List α} (h : List.Forall₂ denotes ts as)
    (hr : ∀ t ∈ ts, ∀ a, denotes t a → ∃ b, denotes' (t.relocate m) b ∧ respell b = respell a) :
    ∃ bs, List.Forall₂ denotes' (ts.map (Tree.relocate m)) bs ∧
      bs.map respell = as.map respell := by
  induction h with
  | nil => exact ⟨[], .nil, rfl⟩
  | @cons t a ts as ht _ ih =>
    obtain ⟨b, hb, hba⟩ := hr t List.mem_cons_self a ht
    obtain ⟨bs, hbs, hbas⟩ := ih fun u hu => hr u (List.mem_cons_of_mem t hu)
    refine ⟨b :: bs, .cons hb hbs, ?_⟩
    rw [List.map_cons, List.map_cons, hba, hbas]

theorem DenotesArgument.relocate {a : Argument} (h : DenotesArgument text t a)
    (hf : Faithful f text text' m t) :
    ∃ b, DenotesArgument text' (t.relocate m) b ∧ b.respell f = a.respell f := by
  cases h with
  | @argument r list spelling name initial id written d isConst v ps hl hs hn hv =>
    have hspelling := hf.child spelling (List.mem_cons_of_mem _ List.mem_cons_self)
    obtain ⟨written', hs', hwritten⟩ := hs.relocate hspelling
    refine ⟨⟨id, written', v, ps⟩, .argument hl.relocate hs' hn.relocate hv.relocate, ?_⟩
    rw [Argument.respell, Argument.respell, hwritten]

theorem DenoteArguments.relocate {as : List Argument} (h : DenoteArguments text t as)
    (hf : Faithful f text text' m t) :
    ∃ bs, DenoteArguments text' (t.relocate m) bs ∧
      bs.map (Argument.respell f) = as.map (Argument.respell f) := by
  cases h with
  | absent => exact ⟨[], .absent, rfl⟩
  | present h =>
    obtain ⟨bs, hbs, heq⟩ := forall₂_respell h fun u hu _ ha => ha.relocate (hf.child u hu)
    refine ⟨bs, ?_, heq⟩
    rw [relocate_node]
    exact .present hbs

theorem DenotesMember.relocate {ps : List Property} {l : Leaf} (h : DenotesMember text ps t l)
    (hf : Faithful f text text' m t) :
    ∃ k, DenotesMember text' ps (t.relocate m) k ∧ k.respell f = l.respell f := by
  cases h with
  | @field r mark spelling name initial id written d v isStatic hm hs hn hv =>
    have hspelling := hf.child spelling (List.mem_cons_of_mem _ List.mem_cons_self)
    obtain ⟨written', hs', -⟩ := hs.relocate hspelling
    exact ⟨.field ⟨id, d, v, ps, isStatic⟩,
      .field hm.relocate hs' hn.relocate hv.relocate, rfl⟩
  | @method r mark spelling name arguments id written d isConst as isStatic hm hs hn ha =>
    have hspelling := hf.child spelling (List.mem_cons_of_mem _ List.mem_cons_self)
    have harguments := hf.child arguments
      (List.mem_cons_of_mem _ (List.mem_cons_of_mem _ (List.mem_cons_of_mem _ List.mem_cons_self)))
    obtain ⟨written', hs', hwritten⟩ := hs.relocate hspelling
    obtain ⟨bs, hbs, heq⟩ := ha.relocate harguments
    refine ⟨.method ⟨id, written', bs, ps, isStatic⟩,
      .method hm.relocate hs' hn.relocate hbs, ?_⟩
    rw [Leaf.respell, Leaf.respell, Method.respell, Method.respell, hwritten, heq]

mutual

theorem DenotesDeclaration.relocate : (d : Declaration) → {t : Tree} →
    DenotesDeclaration text t d → Faithful f text text' m t →
    ∃ e, DenotesDeclaration text' (t.relocate m) e ∧ e.respell f = d.respell f
  | .leaf l, _, h, hf => by
    cases h with
    | @leaf r lists member ps l hl hm =>
      have hmember := hf.child member (List.mem_append_right lists List.mem_cons_self)
      obtain ⟨k, hk, heq⟩ := hm.relocate hmember
      refine ⟨.leaf k, ?_, congrArg Declaration.leaf heq⟩
      rw [relocate_node, List.map_append]
      exact .leaf hl.relocate hk
  | .block ps ds, _, h, hf => by
    cases h with
    | @block r rb ri lists inner ps ds hl hi =>
      have hblock := hf.child _ (List.mem_append_right lists List.mem_cons_self)
      have hbody := (hblock.child _ List.mem_cons_self).child
      obtain ⟨es, hes, heq⟩ := DenoteDeclarations.relocate ds hi hbody
      refine ⟨.block ps es, ?_, congrArg (Declaration.block ps) heq⟩
      rw [relocate_node, List.map_append, List.map_singleton, relocate_node, List.map_singleton,
        relocate_node]
      exact .block hl.relocate hes

theorem DenoteDeclarations.relocate : (ds : List Declaration) → {ts : List Tree} →
    List.Forall₂ (DenotesDeclaration text) ts ds → (∀ t ∈ ts, Faithful f text text' m t) →
    ∃ es, List.Forall₂ (DenotesDeclaration text') (ts.map (Tree.relocate m)) es ∧
      Declaration.respellAll f es = Declaration.respellAll f ds
  | [], _, h, _ => by
    cases h
    exact ⟨[], .nil, rfl⟩
  | d :: ds, _, h, hf => by
    cases h with
    | cons hd hds =>
      obtain ⟨ht, hts⟩ := List.forall_mem_cons.1 hf
      obtain ⟨e, he, heq⟩ := DenotesDeclaration.relocate d hd ht
      obtain ⟨es, hes, heqs⟩ := DenoteDeclarations.relocate ds hds hts
      refine ⟨e :: es, .cons he hes, ?_⟩
      rw [Declaration.respellAll, Declaration.respellAll, heq, heqs]

end

/-- A class denotes the same class elsewhere, up to spelling. -/
theorem DenotesClass.relocate {c : Class} (h : DenotesClass text t c)
    (hf : Faithful f text text' m t) :
    ∃ c', DenotesClass text' (t.relocate m) c' ∧ c'.respell f = c.respell f := by
  cases h with
  | @classDecl r ri list name bases keyword id range inner ps names ds hl hn hb hi =>
    have hbody := hf.child (node (.known .body) ri inner) (by
      simp only [List.mem_cons, true_or, or_true])
    obtain ⟨es, hes, heq⟩ := DenoteDeclarations.relocate ds hi hbody.child
    refine ⟨⟨id, names, ps, ⟨[], es⟩⟩, ?_, ?_⟩
    · rw [relocate_node]
      simp only [List.map_cons, List.map_nil, relocate_node]
      exact .classDecl hl.relocate hn.relocate hb.relocate hes
    · rw [Class.respell, Class.respell, Block.respell, Block.respell, heq]

theorem DenotesClass.relocate_all {ts : List Tree} {cs : List Class}
    (h : List.Forall₂ (DenotesClass text) ts cs) (hf : ∀ t ∈ ts, Faithful f text text' m t) :
    ∃ ds, List.Forall₂ (DenotesClass text') (ts.map (Tree.relocate m)) ds ∧
      ds.map (Class.respell f) = cs.map (Class.respell f) :=
  forall₂_respell h fun t ht _ hc => hc.relocate (hf t ht)

end

end Tree

end ClassLang
