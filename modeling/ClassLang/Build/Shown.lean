import ClassLang.Build.Fault
import ClassLang.Build.Part

/-!
# Parts inside messages

`Part.shown` writes a part with everything in it, so that a message says exactly what stands where
it does not belong. `Part.plain` writes a part the way it stands inside a sentence: a token as its
text, a type as it is spelled; a part that has no such form is shown in full.
-/

namespace ClassLang.Part

mutual

def shown : Part → String
  | absent => Quoted.missing
  | token kind text _ =>
    "Token(" ++ Quoted.quote kind.terminalName ++ ", " ++ Quoted.quote text ++ ")"
  | tree rule _ children =>
    "Tree(" ++ Quoted.quote rule.ruleName ++ ", " ++ Quoted.list (shownAll children) ++ ")"
  | list items => Quoted.list (shownAll items)
  | word text => Quoted.quote text
  | value v => v.shown
  | property name v isMeta =>
    Quoted.record "Property"
      [("name", Quoted.quote name), ("value", v.shown), ("meta", Quoted.flag isMeta)]
  | type t => t.shown
  | layer .array inner => Quoted.record "ArrayType" [("wrapped", inner.shown)]
  | layer .matrix inner => Quoted.record "MatrixType" [("wrapped", inner.shown)]
  | layer (.pointer depth) inner =>
    Quoted.record "PointerType" [("wrapped", inner.shown), ("depth", toString depth.toNat)]
  | layer .reference inner => Quoted.record "ReferenceType" [("wrapped", inner.shown)]
  | spelling text inner isConst =>
    Quoted.record "TypeSpelling"
      [("text", Quoted.quote text), ("typ", inner.shown), ("is_const", Quoted.flag isConst)]
  | argument name written v ps =>
    Quoted.record "Argument"
      [("name", Quoted.quote name), ("typ", Quoted.quote written), ("value", v.shown),
        ("properties", Quoted.tuple (shownAll ps))]
  | field name t v ps isStatic =>
    Quoted.record "Field"
      [("name", name.shown), ("typ", t.shown), ("value", v.shown),
        ("properties", Quoted.tuple (shownAll ps)), ("is_static", Quoted.flag isStatic)]
  | method name returns as ps isStatic =>
    Quoted.record "Method"
      [("name", name.shown), ("returns", Quoted.quote returns),
        ("arguments", Quoted.tuple (shownAll as)), ("properties", Quoted.tuple (shownAll ps)),
        ("is_static", Quoted.flag isStatic)]
  | block ps inner => shownBlock (shownAll ps) (shownAll inner)
  | classDecl name bases ps inner =>
    Quoted.record "Class"
      [("name", Quoted.quote name), ("inherit", Quoted.tuple (shownAll bases)),
        ("inner", shownBlock [] (shownAll inner)), ("properties", Quoted.tuple (shownAll ps))]
  | unit classes =>
    Quoted.record "TranslationUnit" [("classes", Quoted.tuple (shownAll classes))]

def shownAll : List Part → List String
  | [] => []
  | p :: ps => p.shown :: shownAll ps

def shownBlock (properties inner : List String) : String :=
  Quoted.record "Block" [("properties", Quoted.tuple properties), ("inner", Quoted.tuple inner)]

end

/-- The texts of parts that all have to be texts, counted from a place. -/
def textsFrom (place : Nat) : List Part → Except Misfit (List String)
  | [] => .ok []
  | p :: ps =>
    match p.text? with
    | none => .error (.notText place p.kindName)
    | some text => (textsFrom (place + 1) ps).map (text :: ·)

def plain : Part → Except Misfit String
  | token _ text _ => .ok text
  | word text => .ok text
  | value v => .ok v.text
  | property name v isMeta =>
    let head := if isMeta then "meta " ++ name else name
    if v.isAbsent then .ok head else (plain v).map fun text => head ++ "=" ++ text
  | type t => .ok t.text
  | layer .array inner => (plain inner).map (· ++ "[]")
  | layer .matrix inner => (plain inner).map fun text => "Matrix<" ++ text ++ ">"
  | layer (.pointer .one) inner => (plain inner).map (· ++ "*")
  | layer (.pointer .two) inner => (plain inner).map (· ++ "**")
  | layer .reference inner => (plain inner).map (· ++ "&")
  | classDecl name [] _ _ => .ok ("class " ++ name)
  | classDecl name bases _ _ =>
    (textsFrom 0 bases).map fun texts => "class " ++ name ++ " : " ++ ", ".intercalate texts
  | p => .ok p.shown

theorem plain_ofType (t : DataType) : (ofType t).plain = .ok t.text := by
  induction t with
  | primitive p => rfl
  | named name => rfl
  | array t ih => rw [ofType, plain, ih]; rfl
  | matrix t ih => rw [ofType, plain, ih]; rfl
  | pointer depth t ih => cases depth <;> rw [ofType, plain, ih] <;> rfl
  | reference t ih => rw [ofType, plain, ih]; rfl

end ClassLang.Part
