import ClassLang.SourceUnit

/-!
# Views for templates

What template code gets to see of a class: plain records without nesting of blocks. A value that
was never given has the view of the default value, and whether one was given is kept beside it. The
view of a type holds the text of the type and the view of the type below its outermost layer, so it
is built as deep as calls can be nested, and a class with a type of more layers has no view.
-/

namespace ClassLang

inductive ViewData where
  | nothing
  | number (n : Int)
  | flag (b : Bool)
  | float (x : Binary64)
  | text (s : String)
  deriving DecidableEq

structure ValueView where
  kind : String
  data : ViewData
  text : String
  deriving DecidableEq

/-- The view of a type; `inner` is the view of the type under the outermost layer. -/
inductive TypeView where
  | mk (kind text : String) (isPrimitive : Bool) (name : Option String) (depth : Nat)
      (inner : Option TypeView)

structure PropertyView where
  name : String
  isMeta : Bool
  value : Option ValueView
  deriving DecidableEq

structure ArgumentView where
  name : String
  type : String
  value : ValueView
  properties : List PropertyView
  deriving DecidableEq

structure FieldView where
  name : String
  type : TypeView
  value : ValueView
  hasValue : Bool
  isStatic : Bool
  properties : List PropertyView

structure MethodView where
  name : String
  returns : String
  isStatic : Bool
  arguments : List ArgumentView
  properties : List PropertyView
  deriving DecidableEq

structure ClassView where
  name : String
  bases : List String
  primaryBase : Option String
  properties : List PropertyView
  fields : List FieldView
  methods : List MethodView

def Value.viewData : Value → ViewData
  | .default => .nothing
  | .nullptr => .nothing
  | .char b => .number b.toNat
  | .bool b => .flag b
  | .float x => .float x
  | .string s => .text s
  | .integer n => .number n

def Value.view (v : Value) : ValueView := ⟨v.kindName, v.viewData, v.text⟩

/-- The view of a value that may be missing. -/
def Value.view? (v : Option Value) : ValueView := (v.getD .default).view

/-- The view of a layer around a type, where there are a view of that type and a text of both. -/
def TypeView.layer? (kind : String) (stars : Nat) (inner : Option TypeView)
    (text : Option String) : Option TypeView := do
  let inner ← inner
  let text ← text
  return .mk kind text false none stars (some inner)

def DataType.view? : Nat → DataType → Option TypeView
  | _, .primitive p => some (.mk p.name p.spelling true none 0 none)
  | _, .named name => some (.mk "class" name false (some name) 0 none)
  | 0, _ => none
  | depth + 1, .array t =>
    TypeView.layer? "array" 0 (t.view? depth) ((array t).text? (depth + 1))
  | depth + 1, .matrix t =>
    TypeView.layer? "matrix" 0 (t.view? depth) ((matrix t).text? (depth + 1))
  | depth + 1, .pointer d t =>
    TypeView.layer? "pointer" d.toNat (t.view? depth) ((pointer d t).text? (depth + 1))
  | depth + 1, .reference t =>
    TypeView.layer? "ref" 0 (t.view? depth) ((reference t).text? (depth + 1))

def Property.view (p : Property) : PropertyView := ⟨p.name, p.isMeta, p.value.map Value.view⟩

def Argument.view (a : Argument) : ArgumentView :=
  ⟨a.name, a.type, Value.view? a.value, a.properties.map Property.view⟩

def Field.view? (depth : Nat) (f : Field) : Option FieldView := do
  let type ← f.type.view? depth
  return ⟨f.name, type, Value.view? f.value, f.value.isSome, f.isStatic,
    f.properties.map Property.view⟩

def Method.view (m : Method) : MethodView :=
  ⟨m.name, m.returns, m.isStatic, m.arguments.map Argument.view, m.properties.map Property.view⟩

def Class.view? (depth : Nat) (c : Class) : Option ClassView := do
  let fields ← c.fields.mapM (Field.view? depth)
  return ⟨c.name, c.bases, c.primaryBase, c.properties.map Property.view, fields,
    c.methods.map Method.view⟩

/-! ### Equality, in which numbers are compared as numbers

The parts of a view are compared in the order in which they stand, so data is only compared where
the kinds are equal.
-/

def ViewData.same : ViewData → ViewData → Bool
  | .float x, .float y => x.same y
  | d, e => d == e

namespace ValueView

def same (v w : ValueView) : Bool :=
  v.kind == w.kind && v.data.same w.data && v.text == w.text

def same? : Option ValueView → Option ValueView → Bool
  | none, none => true
  | some v, some w => v.same w
  | _, _ => false

end ValueView

mutual

def TypeView.same : TypeView → TypeView → Bool
  | .mk kind text isPrimitive name depth inner, .mk kind' text' isPrimitive' name' depth' inner' =>
    kind == kind' && text == text' && isPrimitive == isPrimitive' && name == name' &&
      depth == depth' && TypeView.same? inner inner'

def TypeView.same? : Option TypeView → Option TypeView → Bool
  | none, none => true
  | some t, some u => t.same u
  | _, _ => false

end

def PropertyView.same (p q : PropertyView) : Bool :=
  p.name == q.name && p.isMeta == q.isMeta && ValueView.same? p.value q.value

def ArgumentView.same (a b : ArgumentView) : Bool :=
  a.name == b.name && a.type == b.type && a.value.same b.value &&
    sameList PropertyView.same a.properties b.properties

def FieldView.same (f g : FieldView) : Bool :=
  f.name == g.name && f.type.same g.type && f.value.same g.value && f.hasValue == g.hasValue &&
    f.isStatic == g.isStatic && sameList PropertyView.same f.properties g.properties

def MethodView.same (m n : MethodView) : Bool :=
  m.name == n.name && m.returns == n.returns && m.isStatic == n.isStatic &&
    sameList ArgumentView.same m.arguments n.arguments &&
    sameList PropertyView.same m.properties n.properties

def ClassView.same (c d : ClassView) : Bool :=
  c.name == d.name && c.bases == d.bases && c.primaryBase == d.primaryBase &&
    sameList PropertyView.same c.properties d.properties &&
    sameList FieldView.same c.fields d.fields && sameList MethodView.same c.methods d.methods

end ClassLang
