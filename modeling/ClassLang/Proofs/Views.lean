import ClassLang.Proofs.Build.WellFormed
import ClassLang.View

/-!
# What views keep

The kind of a value and its data give the value back, except that a missing value and the default
share one view; the literals of a text never denote the default. Two zeros are equal as numbers and
differ in their text. The view of a type names its outermost layer and holds the view of the type
below it, so types are told apart layer by layer. Views are compared as those of types of any height
(`DataType.view`); a class has one exactly where no type of its fields has more layers than calls
can be nested (`Class.view?_eq_some`). Main statement: where two classes of texts have views, these
are equal if and only if the classes agree in everything but the nesting of their blocks.
-/

namespace ClassLang

/-! ### Numbers -/

namespace Binary64

variable {x y : Binary64}

theorem text_of_magnitude_eq_zero (h : x.magnitude = 0) :
    x.text = if x.isNegative then "-0.0" else "0.0" := by
  have hNaN : x.isNaN = false := by simp [isNaN, h]
  have hinfinite : x.isInfinite = false := by simp [isInfinite, h, infinity]
  simp only [text, hNaN, hinfinite, h, Bool.false_eq_true, if_false, if_true]
  cases x.isNegative <;> rfl

theorem eq_of_magnitude (hm : x.magnitude = y.magnitude) (hs : x.isNegative = y.isNegative) :
    x = y := by
  obtain ⟨x⟩ := x
  obtain ⟨y⟩ := y
  have hx := x.toNat_lt
  have hy := y.toNat_lt
  have hp : Nat.pow 2 63 = 9223372036854775808 := rfl
  simp only [magnitude, isNegative, hp, decide_eq_decide] at hm hs
  congr 1
  apply UInt64.toNat_inj.1
  omega

theorem eq_of_same (h : x.same y = true) (ht : x.text = y.text) : x = y := by
  simp only [same, Bool.and_eq_true, Bool.or_eq_true, beq_iff_eq] at h
  obtain ⟨-, hbits | ⟨hx, hy⟩⟩ := h
  · exact congrArg Binary64.mk hbits
  -- two zeros may differ in their sign, and then their texts do
  · rw [text_of_magnitude_eq_zero hx, text_of_magnitude_eq_zero hy] at ht
    apply eq_of_magnitude (hx.trans hy.symm)
    cases hxs : x.isNegative <;> cases hys : y.isNegative <;> simp [hxs, hys] at ht ⊢

theorem same_self (h : x.isNaN = false) : x.same x = true := by
  simp [same, h]

end Binary64

/-! ### Lists and values -/

/-- If an encoding keeps items apart, item by item it keeps lists apart. -/
theorem sameList_map {α β : Type} {same : β → β → Bool} {f : α → β} {as bs : List α}
    (h : ∀ a ∈ as, ∀ b ∈ bs, (same (f a) (f b) = true ↔ a = b)) :
    sameList same (as.map f) (bs.map f) = true ↔ as = bs := by
  induction as generalizing bs with
  | nil => cases bs <;> simp [sameList]
  | cons a as ih =>
    cases bs with
    | nil => simp [sameList]
    | cons b bs =>
      have hhead := h a List.mem_cons_self b List.mem_cons_self
      have htail := ih fun c hc d hd =>
        h c (List.mem_cons_of_mem _ hc) d (List.mem_cons_of_mem _ hd)
      simp only [List.map_cons, sameList, Bool.and_eq_true, hhead, htail, List.cons.injEq]

namespace Value

theorem eq_of_view_same {v w : Value} (h : v.view.same w.view = true) : v = w := by
  simp only [view, ValueView.same, Bool.and_eq_true, beq_iff_eq] at h
  obtain ⟨⟨hkind, hdata⟩, htext⟩ := h
  cases v <;> cases w <;> simp only [kindName, String.reduceEq] at hkind
  case default => rfl
  case nullptr => rfl
  case char b c =>
    simp only [viewData, ViewData.same, beq_iff_eq, ViewData.number.injEq] at hdata
    exact congrArg char (UInt8.toNat_inj.1 (Int.ofNat_inj.1 hdata))
  case bool b c => simpa [viewData, ViewData.same] using hdata
  case float x y => exact congrArg float (Binary64.eq_of_same hdata htext)
  case string s t => simpa [viewData, ViewData.same] using hdata
  case integer m n => simpa [viewData, ViewData.same] using hdata

theorem view_same {v w : Value} (hv : v.WellFormed) : v.view.same w.view = true ↔ v = w := by
  refine ⟨eq_of_view_same, ?_⟩
  rintro rfl
  cases v <;> simp [view, ValueView.same, viewData, ViewData.same]
  case float x => exact Binary64.same_self hv

theorem WellFormed.ne_default {v : Value} (h : v.WellFormed) : v ≠ .default := by
  rintro rfl
  exact h

/-- Where no value is the default, the view tells a missing value from a given one. -/
theorem view?_same {v w : Option Value} (hv : ∀ x ∈ v, x.WellFormed) (hw : ∀ x ∈ w, x.WellFormed) :
    (view? v).same (view? w) = true ↔ v = w := by
  cases v with
  | none =>
    cases w with
    | none => decide
    | some y =>
      have hdefault : ¬(view? none).same (view? (some y)) = true := fun h =>
        (hw y rfl).ne_default (eq_of_view_same h).symm
      simp [hdefault]
  | some x =>
    cases w with
    | none =>
      have hdefault : ¬(view? (some x)).same (view? none) = true := fun h =>
        (hv x rfl).ne_default (eq_of_view_same h)
      simp [hdefault]
    | some y =>
      rw [Option.some_inj]
      exact view_same (hv x rfl)

end Value

/-! ### Types -/

theorem PointerDepth.toNat_inj {d e : PointerDepth} : d.toNat = e.toNat ↔ d = e := by
  cases d <;> cases e <;> decide

namespace DataType

/-- The view of a type, where calls can be nested as deep as it takes. -/
def view : DataType → TypeView
  | .primitive p => .mk p.name p.spelling true none 0 none
  | .named name => .mk "class" name false (some name) 0 none
  | .array t => .mk "array" (array t).text false none 0 (some t.view)
  | .matrix t => .mk "matrix" (matrix t).text false none 0 (some t.view)
  | .pointer d t => .mk "pointer" (pointer d t).text false none d.toNat (some t.view)
  | .reference t => .mk "ref" (reference t).text false none 0 (some t.view)

theorem layer?_eq_some {kind s : String} {stars depth : Nat} {t u : DataType} {v : TypeView}
    (ih : ∀ v, t.view? depth = some v ↔ t.height ≤ depth ∧ t.view = v)
    (hu : u.height = t.height + 1) (hs : u.text = s) :
    TypeView.layer? kind stars (t.view? depth) (u.text? (depth + 1)) = some v ↔
      u.height ≤ depth + 1 ∧ TypeView.mk kind s false none stars (some t.view) = v := by
  rw [text?_eq, hs]
  by_cases h : u.height ≤ depth + 1
  · have hbelow : t.view? depth = some t.view := (ih _).2 ⟨by omega, rfl⟩
    rw [if_pos h, hbelow]
    simp [TypeView.layer?, h]
  · rw [if_neg h]
    cases t.view? depth <;> simp [TypeView.layer?, h]

theorem view?_eq_some {depth : Nat} {t : DataType} {v : TypeView} :
    t.view? depth = some v ↔ t.height ≤ depth ∧ t.view = v := by
  induction t generalizing depth v with
  | primitive p | named name => simp [view?, view, height]
  | array t ih | matrix t ih | pointer d t ih | reference t ih =>
    cases depth with
    | zero => simp [view?, height]
    | succ depth => exact layer?_eq_some (fun _ => ih) rfl rfl

/-- A view shows the outermost layer of a type and holds the view of the type below. -/
theorem view_eq (t : DataType) :
    t.view = .mk t.kindName t.text t.isPrimitive (if t.isClass then some t.text else none) t.depth
      (t.inner?.map view) := by
  cases t <;> rfl

theorem eq_of_layer {t u : DataType} (hkind : t.kindName = u.kindName) (htext : t.text = u.text)
    (hdepth : t.depth = u.depth) (hinner : t.inner? = u.inner?) : t = u := by
  cases t with
  | primitive p =>
    cases u with
    | primitive q => cases p <;> cases q <;> simp [kindName, Primitive.name] at hkind ⊢
    | named name => cases p <;> simp [kindName, Primitive.name] at hkind
    | _ => simp [inner?] at hinner
  | named name =>
    cases u with
    | primitive q => cases q <;> simp [kindName, Primitive.name] at hkind
    | named other => exact congrArg named htext
    | _ => simp [inner?] at hinner
  | array t => cases u <;> simp_all [kindName, inner?]
  | matrix t => cases u <;> simp_all [kindName, inner?]
  | pointer d t => cases u <;> simp_all [kindName, inner?, depth, PointerDepth.toNat_inj]
  | reference t => cases u <;> simp_all [kindName, inner?]

theorem inner_eq_of_same {o p : Option DataType}
    (ho : ∀ t ∈ o, ∀ u : DataType, t.view.same u.view = true → t = u)
    (h : TypeView.same? (o.map view) (p.map view) = true) : o = p := by
  cases o with
  | none => cases p <;> simp [TypeView.same?] at h ⊢
  | some t =>
    cases p with
    | none => simp [TypeView.same?] at h
    | some u => exact congrArg some (ho t rfl u h)

theorem eq_of_view_same_inner {t u : DataType}
    (hinner : ∀ a ∈ t.inner?, ∀ b : DataType, a.view.same b.view = true → a = b)
    (h : t.view.same u.view = true) : t = u := by
  rw [view_eq t, view_eq u] at h
  simp only [TypeView.same, Bool.and_eq_true, beq_iff_eq] at h
  obtain ⟨⟨⟨⟨⟨hkind, htext⟩, -⟩, -⟩, hdepth⟩, hbelow⟩ := h
  exact eq_of_layer hkind htext hdepth (inner_eq_of_same hinner hbelow)

theorem eq_of_view_same {t u : DataType} (h : t.view.same u.view = true) : t = u := by
  induction t generalizing u with
  | primitive p | named name => exact eq_of_view_same_inner nofun h
  | array t ih | matrix t ih | pointer d t ih | reference t ih =>
    refine eq_of_view_same_inner ?_ h
    rintro _ ⟨⟩ u hu
    exact ih hu

theorem view_same {t u : DataType} : t.view.same u.view = true ↔ t = u := by
  refine ⟨eq_of_view_same, ?_⟩
  rintro rfl
  induction t <;> simp [view, TypeView.same, TypeView.same?, *]

end DataType

/-! ### Properties and leaves -/

theorem Property.view_same {p q : Property} (hp : p.WellFormed) :
    p.view.same q.view = true ↔ p = q := by
  have hvalue : ValueView.same? (p.value.map Value.view) (q.value.map Value.view) = true ↔
      p.value = q.value := by
    cases hv : p.value <;> cases q.value <;>
      simp only [Option.map, ValueView.same?, Option.some_inj, reduceCtorEq, Bool.false_eq_true]
    exact Value.view_same (hp.value _ hv)
  obtain ⟨name, value, isMeta⟩ := p
  obtain ⟨name', value', isMeta'⟩ := q
  simp only [view, PropertyView.same, Bool.and_eq_true, beq_iff_eq, hvalue, mk.injEq]
  tauto

theorem sameList_property {ps : List Property} (hp : ∀ p ∈ ps, p.WellFormed) (qs : List Property) :
    sameList PropertyView.same (ps.map Property.view) (qs.map Property.view) = true ↔ ps = qs :=
  sameList_map fun p hmem _ _ => Property.view_same (hp p hmem)

theorem Argument.view_same {a b : Argument} (ha : a.WellFormed) (hb : b.WellFormed) :
    a.view.same b.view = true ↔ a = b := by
  have hvalue := Value.view?_same ha.value hb.value
  have hproperties := sameList_property ha.properties b.properties
  obtain ⟨name, type, value, properties⟩ := a
  obtain ⟨name', type', value', properties'⟩ := b
  simp only [view, ArgumentView.same, Bool.and_eq_true, beq_iff_eq, hvalue, hproperties, mk.injEq,
    and_assoc]

/-- The view of a field, whatever the height of its type. -/
def Field.view (f : Field) : FieldView :=
  ⟨f.name, f.type.view, Value.view? f.value, f.value.isSome, f.isStatic,
    f.properties.map Property.view⟩

theorem Field.view?_eq_some {depth : Nat} {f : Field} {v : FieldView} :
    f.view? depth = some v ↔ f.type.height ≤ depth ∧ f.view = v := by
  simp only [Field.view?, Option.bind_eq_bind, Option.bind_eq_some_iff, DataType.view?_eq_some]
  constructor
  · rintro ⟨_, ⟨hheight, rfl⟩, hv⟩
    exact ⟨hheight, Option.some.inj hv⟩
  · rintro ⟨hheight, rfl⟩
    exact ⟨_, ⟨hheight, rfl⟩, rfl⟩

theorem mapM_view?_eq_some {depth : Nat} {fs : List Field} {vs : List FieldView} :
    fs.mapM (Field.view? depth) = some vs ↔
      (∀ f ∈ fs, f.type.height ≤ depth) ∧ fs.map Field.view = vs := by
  induction fs generalizing vs with
  | nil => simp
  | cons f fs ih =>
    simp only [List.mapM_cons, Option.bind_eq_bind, Option.bind_eq_some_iff, Field.view?_eq_some,
      ih, List.forall_mem_cons, List.map_cons]
    constructor
    · rintro ⟨_, ⟨hf, rfl⟩, _, ⟨hfs, rfl⟩, hv⟩
      exact ⟨⟨hf, hfs⟩, Option.some.inj hv⟩
    · rintro ⟨⟨hf, hfs⟩, rfl⟩
      exact ⟨_, ⟨hf, rfl⟩, _, ⟨hfs, rfl⟩, rfl⟩

theorem Field.view_same {f g : Field} (hf : f.WellFormed) (hg : g.WellFormed) :
    f.view.same g.view = true ↔ f = g := by
  have hvalue := Value.view?_same hf.value hg.value
  have hproperties := sameList_property hf.properties g.properties
  obtain ⟨name, type, value, properties, isStatic⟩ := f
  obtain ⟨name', type', value', properties', isStatic'⟩ := g
  simp only [view, FieldView.same, Bool.and_eq_true, beq_iff_eq, hvalue, hproperties,
    DataType.view_same, mk.injEq]
  grind

theorem Method.view_same {m n : Method} (hm : m.WellFormed) (hn : n.WellFormed) :
    m.view.same n.view = true ↔ m = n := by
  have harguments : sameList ArgumentView.same (m.arguments.map Argument.view)
      (n.arguments.map Argument.view) = true ↔ m.arguments = n.arguments :=
    sameList_map fun a ha b hb => Argument.view_same (hm.arguments a ha) (hn.arguments b hb)
  have hproperties := sameList_property hm.properties n.properties
  obtain ⟨name, returns, arguments, properties, isStatic⟩ := m
  obtain ⟨name', returns', arguments', properties', isStatic'⟩ := n
  simp only [view, MethodView.same, Bool.and_eq_true, beq_iff_eq, harguments, hproperties, mk.injEq]
  tauto

/-! ### Flattened leaves -/

theorem Leaf.WellFormed.propagate {l : Leaf} {ps : List Property} (h : l.WellFormed)
    (hp : ∀ p ∈ ps, p.WellFormed) : (l.propagate ps).WellFormed := by
  cases l with
  | field f => exact { h with properties := List.forall_mem_append.2 ⟨hp, h.properties⟩ }
  | method m => exact { h with properties := List.forall_mem_append.2 ⟨hp, h.properties⟩ }

theorem wellFormed_leavesOf {ds : List Declaration} (h : ∀ d ∈ ds, d.WellFormed) :
    ∀ l ∈ leavesOf ds, l.WellFormed := by
  intro l hl
  obtain ⟨d, hd, hleaf⟩ := List.mem_filterMap.1 hl
  cases h d hd with
  | leaf hwell =>
    obtain rfl := Option.some.inj hleaf
    exact hwell
  | block => cases hleaf

mutual

theorem Declaration.wellFormed_flatten : (d : Declaration) → {inherited : List Property} →
    d.WellFormed → (∀ p ∈ inherited, p.WellFormed) → ∀ l ∈ d.flatten inherited, l.WellFormed
  | .leaf _, _, _, _ => nofun
  | .block ps ds, inherited, h, hi => by
    cases h with
    | block hp hd =>
      have hscope : ∀ p ∈ inherited ++ ps, p.WellFormed := List.forall_mem_append.2 ⟨hi, hp⟩
      rw [Declaration.flatten]
      refine List.forall_mem_append.2 ⟨?_, wellFormed_flattenBlocks ds hd hscope⟩
      exact List.forall_mem_map.2 fun l hl => (wellFormed_leavesOf hd l hl).propagate hscope

theorem wellFormed_flattenBlocks : (ds : List Declaration) → {inherited : List Property} →
    (∀ d ∈ ds, d.WellFormed) → (∀ p ∈ inherited, p.WellFormed) →
    ∀ l ∈ flattenBlocks inherited ds, l.WellFormed
  | [], _, _, _ => nofun
  | d :: ds, _, h, hi => by
    obtain ⟨hd, hds⟩ := List.forall_mem_cons.1 h
    exact List.forall_mem_append.2
      ⟨Declaration.wellFormed_flatten d hd hi, wellFormed_flattenBlocks ds hds hi⟩

end

namespace Class

theorem WellFormed.leaves {c : Class} (h : c.WellFormed) : ∀ l ∈ c.body.flat, l.WellFormed := by
  rw [Block.flat_eq_flatten]
  refine Declaration.wellFormed_flatten c.body.toDeclaration (.block ?_ h.inner) nofun
  rw [h.bare]
  exact nofun

theorem WellFormed.fields {c : Class} (h : c.WellFormed) : ∀ f ∈ c.fields, f.WellFormed := by
  intro f hf
  obtain ⟨l, hl, hfield⟩ := List.mem_filterMap.1 hf
  cases l with
  | field g =>
    obtain rfl := Option.some.inj hfield
    exact h.leaves _ hl
  | method m => cases hfield

theorem WellFormed.methods {c : Class} (h : c.WellFormed) : ∀ m ∈ c.methods, m.WellFormed := by
  intro m hm
  obtain ⟨l, hl, hmethod⟩ := List.mem_filterMap.1 hm
  cases l with
  | field f => cases hmethod
  | method n =>
    obtain rfl := Option.some.inj hmethod
    exact h.leaves _ hl

/-! ### Classes -/

/-- The view of a class, whatever the height of its types. -/
def view (c : Class) : ClassView :=
  ⟨c.name, c.bases, c.primaryBase, c.properties.map Property.view, c.fields.map Field.view,
    c.methods.map Method.view⟩

/-- No type of a field has more layers than calls can be nested. -/
def Viewable (depth : Nat) (c : Class) : Prop := ∀ f ∈ c.fields, f.type.height ≤ depth

theorem view?_eq_some {depth : Nat} {c : Class} {v : ClassView} :
    c.view? depth = some v ↔ c.Viewable depth ∧ c.view = v := by
  simp only [Class.view?, Option.bind_eq_bind, Option.bind_eq_some_iff, mapM_view?_eq_some]
  constructor
  · rintro ⟨_, ⟨hfields, rfl⟩, hv⟩
    exact ⟨hfields, Option.some.inj hv⟩
  · rintro ⟨hfields, rfl⟩
    exact ⟨_, ⟨hfields, rfl⟩, rfl⟩

theorem isSome_view? {depth : Nat} {c : Class} :
    (c.view? depth).isSome = true ↔ c.Viewable depth := by
  rw [Option.isSome_iff_exists]
  exact ⟨fun ⟨_, hv⟩ => (view?_eq_some.1 hv).1, fun h => ⟨_, view?_eq_some.2 ⟨h, rfl⟩⟩⟩

/-- Two classes that differ in the nesting of their blocks at most. Numbers are the same if their
bits are. -/
structure Agrees (a b : Class) : Prop where
  name : a.name = b.name
  bases : a.bases = b.bases
  properties : a.properties = b.properties
  fields : a.fields = b.fields
  methods : a.methods = b.methods

theorem Agrees.view {a b : Class} (h : a.Agrees b) : a.view = b.view := by
  rw [Class.view, Class.view, primaryBase, primaryBase, h.name, h.bases, h.properties, h.fields,
    h.methods]

theorem Agrees.view? {a b : Class} (h : a.Agrees b) {depth : Nat} :
    a.view? depth = b.view? depth := by
  rw [Class.view?, Class.view?, primaryBase, primaryBase, h.name, h.bases, h.properties, h.fields,
    h.methods]

theorem view_same {a b : Class} (ha : a.WellFormed) (hb : b.WellFormed) :
    a.view.same b.view = true ↔ a.Agrees b := by
  have hproperties := sameList_property ha.properties b.properties
  have hfields : sameList FieldView.same (a.fields.map Field.view) (b.fields.map Field.view) = true
      ↔ a.fields = b.fields :=
    sameList_map fun f hf g hg => Field.view_same (ha.fields f hf) (hb.fields g hg)
  have hmethods : sameList MethodView.same (a.methods.map Method.view)
      (b.methods.map Method.view) = true ↔ a.methods = b.methods :=
    sameList_map fun m hm n hn => Method.view_same (ha.methods m hm) (hb.methods n hn)
  simp only [Class.view, ClassView.same, Bool.and_eq_true, beq_iff_eq, hproperties, hfields,
    hmethods]
  constructor
  · rintro ⟨⟨⟨⟨⟨hname, hbases⟩, -⟩, hps⟩, hfs⟩, hms⟩
    exact ⟨hname, hbases, hps, hfs, hms⟩
  · intro h
    have hprimary : a.primaryBase = b.primaryBase := by rw [primaryBase, primaryBase, h.bases]
    exact ⟨⟨⟨⟨⟨h.name, h.bases⟩, hprimary⟩, h.properties⟩, h.fields⟩, h.methods⟩

end Class

/-- A class of a text has a view exactly if no type of a field has more layers than calls can be
nested, and classes that agree have the same one or both none. Where two classes have views, these
tell what the classes agree in, whether numbers are compared by their bits or as numbers. -/
theorem parse_views {text text' : List Char} {u v : SourceUnit} (hu : parse text = .ok u)
    (hv : parse text' = .ok v) {a b : Class} (ha : a ∈ u.classes) (hb : b ∈ v.classes)
    (depth : Nat) :
    ((a.view? depth).isSome = true ↔ ∀ f ∈ a.fields, f.type.height ≤ depth) ∧
      (a.Agrees b → a.view? depth = b.view? depth) ∧
      ∀ x y, a.view? depth = some x → b.view? depth = some y →
        (x = y ↔ a.Agrees b) ∧ (x.same y = true ↔ a.Agrees b) := by
  have hwell := parse_wellFormed hu a ha
  have hsame := Class.view_same hwell (parse_wellFormed hv b hb)
  refine ⟨Class.isSome_view?, fun h => h.view?, fun x y hx hy => ?_⟩
  obtain ⟨-, rfl⟩ := Class.view?_eq_some.1 hx
  obtain ⟨-, rfl⟩ := Class.view?_eq_some.1 hy
  refine ⟨⟨fun h => ?_, Class.Agrees.view⟩, hsame⟩
  have hself : a.view.same a.view = true :=
    (Class.view_same hwell hwell).2 ⟨rfl, rfl, rfl, rfl, rfl⟩
  rw [h] at hself
  exact hsame.1 (by rw [h]; exact hself)

/-- A class with a negative zero inside blocks, and the same class without blocks. -/
def nestedZero : List Char := "class A \x7b [p] \x7b [q] \x7b float x = -0.0; \x7d \x7d \x7d".toList

def flatZero : List Char := "class A \x7b [p, q] float x = -0.0; \x7d".toList

theorem parse_views_nestedZero : ∃ u v a b, parse nestedZero = .ok u ∧ parse flatZero = .ok v ∧
    a ∈ u.classes ∧ b ∈ v.classes ∧ a.same b = false ∧ a.Agrees b ∧
    ∃ x, a.view? DataType.usualDepth = some x ∧ b.view? DataType.usualDepth = some x := by
  have hok : (parse nestedZero).toOption.isSome = true := by decide +kernel
  have hok' : (parse flatZero).toOption.isSome = true := by decide +kernel
  have hpair : ((parse nestedZero).toOption.bind fun u => (parse flatZero).toOption.map fun v =>
      u.classes.any fun a => v.classes.any fun b => !a.same b &&
        ((a.view? DataType.usualDepth).bind fun x =>
          (b.view? DataType.usualDepth).map x.same) == some true) = some true := by decide +kernel
  obtain ⟨u, hu⟩ := exists_ok_of_isSome hok
  obtain ⟨v, hv⟩ := exists_ok_of_isSome hok'
  rw [hu, hv] at hpair
  obtain ⟨a, ha, hany⟩ := List.any_eq_true.1 (Option.some.inj hpair)
  obtain ⟨b, hb, hviews⟩ := List.any_eq_true.1 hany
  simp only [Bool.and_eq_true, Bool.not_eq_true', beq_iff_eq] at hviews
  obtain ⟨hnested, hsame⟩ := hviews
  obtain ⟨x, hx, hy⟩ := Option.bind_eq_some_iff.1 hsame
  obtain ⟨y, hy, hsame⟩ := Option.map_eq_some_iff.1 hy
  obtain ⟨-, hequal, htell⟩ := parse_views hu hv ha hb DataType.usualDepth
  have hagrees : a.Agrees b := (htell x y hx hy).2.1 hsame
  exact ⟨u, v, a, b, hu, hv, ha, hb, hnested, hagrees, x, hx, hequal hagrees ▸ hx⟩

/-- A field of a type with more layers than calls can usually be nested. -/
def deepField : List Char :=
  "class A \x7b a".toList ++ List.replicate 520 '&' ++ " x; \x7d".toList

/-- There are classes of texts without a view, which is then equal to none. -/
theorem exists_class_deepField : ∃ u a, parse deepField = .ok u ∧ a ∈ u.classes ∧
    a.view? DataType.usualDepth = none := by
  have hviews : (parse deepField).toOption.map (fun u => u.classes.any fun a =>
      (a.view? DataType.usualDepth).isNone) = some true := by decide +kernel
  obtain ⟨u, hu, hany⟩ := exists_ok_of_map hviews
  obtain ⟨a, ha, hnone⟩ := List.any_eq_true.1 hany
  exact ⟨u, a, hu, ha, Option.isNone_iff_eq_none.1 hnone⟩

end ClassLang
