import ClassLang.Syntax.Tree

/-!
# The grammar

The language as a set of rules, said without reading anything. A phrase derives tokens together with
the pieces they leave in the syntax tree. A rule leaves one node, a type leaves the node of its form
and none of its own, and a part that may be missing leaves the sign of its absence.
-/

namespace ClassLang

inductive Phrase where
  | terminal (t : Terminal)
  | rule (r : Rule)
  | type
  | seq (p q : Phrase)
  | either (p q : Phrase)
  | maybe (p : Phrase)
  | many (p : Phrase)

namespace Phrase

instance : Append Phrase := ⟨seq⟩

instance : OrOp Phrase := ⟨either⟩

instance : Coe Terminal Phrase := ⟨terminal⟩

instance : Coe Rule Phrase := ⟨rule⟩

/-- At least one, with commas between them. -/
def separated (p : Phrase) : Phrase := p ++ many (terminal .comma ++ p)

/-- A value that may be given. -/
def initial : Phrase := maybe (terminal .equals ++ rule .value)

def typeForms : Phrase :=
  rule .typeName ||| rule .pointerType ||| rule .doublePointerType ||| rule .referenceType |||
    rule .arrayType ||| rule .matrixType

end Phrase

open Phrase Terminal in
/-- What a rule stands for. -/
def Rule.phrase : Rule → Phrase
  | unit => many classDecl
  | classDecl =>
    maybe properties ++ kwClass ++ identifier ++ maybe inheritance ++ leftBrace ++ body ++
      rightBrace
  | inheritance => colon ++ separated identifier
  | body => many declaration
  | declaration => many properties ++ (fieldDecl ||| methodDecl ||| blockDecl)
  | blockDecl => leftBrace ++ body ++ rightBrace
  | fieldDecl => maybe kwStatic ++ typeSpelling ++ identifier ++ initial ++ semicolon
  | methodDecl =>
    maybe kwStatic ++ typeSpelling ++ identifier ++ leftParen ++ maybe arguments ++ rightParen ++
      semicolon
  | arguments => separated argument
  | argument => maybe properties ++ typeSpelling ++ identifier ++ initial
  | typeSpelling => maybe kwConst ++ type
  | typeName => identifier ++ many (doubleColon ++ identifier)
  | pointerType => type ++ star
  | doublePointerType => type ++ doubleStar
  | referenceType => type ++ ampersand
  | arrayType => type ++ leftBracket ++ rightBracket
  | matrixType => matrixOpen ++ type ++ greater
  | properties => leftBracket ++ separated property ++ rightBracket
  | property => maybe kwMeta ++ identifier ++ initial
  | value => bool ||| char ||| float ||| integer ||| string ||| kwNullptr

def StartRule.phrase : StartRule → Phrase
  | unit => .rule .unit
  | classDecl => .rule .classDecl
  | properties => .rule .properties
  | property => .rule .property
  | body => .rule .body
  | declaration => .rule .declaration
  | fieldDecl => .rule .fieldDecl
  | methodDecl => .rule .methodDecl
  | typeDecl => .type
  | value => .rule .value

/-- The tokens of a phrase and the pieces they leave. -/
inductive Derives : Phrase → List Token → List Tree → Prop
  | terminal (t : Token) : Derives (.terminal t.terminal) [t] [t.tree]
  | rule {r : Rule} {ts : List Token} {ps : List Tree} (h : Derives r.phrase ts ps) :
      Derives (.rule r) ts [Tree.close r ps]
  | type {ts : List Token} {ps : List Tree} (h : Derives Phrase.typeForms ts ps) :
      Derives .type ts ps
  | seq {p q : Phrase} {ts us : List Token} {ps qs : List Tree} (hp : Derives p ts ps)
      (hq : Derives q us qs) : Derives (.seq p q) (ts ++ us) (ps ++ qs)
  | left {p q : Phrase} {ts : List Token} {ps : List Tree} (h : Derives p ts ps) :
      Derives (.either p q) ts ps
  | right {p q : Phrase} {ts : List Token} {ps : List Tree} (h : Derives q ts ps) :
      Derives (.either p q) ts ps
  | absent {p : Phrase} : Derives (.maybe p) [] [.absent]
  | present {p : Phrase} {ts : List Token} {ps : List Tree} (h : Derives p ts ps) :
      Derives (.maybe p) ts ps
  | none {p : Phrase} : Derives (.many p) [] []
  | more {p : Phrase} {ts us : List Token} {ps qs : List Tree} (hp : Derives p ts ps)
      (hq : Derives (.many p) us qs) : Derives (.many p) (ts ++ us) (ps ++ qs)

namespace Derives

variable {p : Phrase} {ts us : List Token} {ps qs : List Tree}

theorem many_append (h : Derives (.many p) ts ps) (h' : Derives (.many p) us qs) :
    Derives (.many p) (ts ++ us) (ps ++ qs) := by
  generalize hm : Phrase.many p = m at h
  induction h with
  | none =>
    obtain rfl := Phrase.many.inj hm
    exact h'
  | more hp _ _ ih =>
    rw [List.append_assoc, List.append_assoc]
    obtain rfl := Phrase.many.inj hm
    exact .more hp (ih rfl)
  | _ => cases hm

theorem many_snoc (h : Derives (.many p) ts ps) (h' : Derives p us qs) :
    Derives (.many p) (ts ++ us) (ps ++ qs) := by
  have hone := Derives.more h' .none
  rw [List.append_nil, List.append_nil] at hone
  exact many_append h hone

/-- A rule leaves a single node. -/
theorem eq_close {r : Rule} (h : Derives (.rule r) ts ps) :
    ∃ qs, ps = [Tree.close r qs] ∧ Derives r.phrase ts qs := by
  cases h with
  | rule h => exact ⟨_, rfl, h⟩

end Derives

end ClassLang
