import ClassLang.Syntax.Derivation
import ClassLang.Syntax.Step

/-!
# Reached points

Which tokens lead to a reading point, told by the grammar: a point is reached by tokens that derive
the pieces it holds, behind tokens that reach its context. The parts of a rule that are read before
a context begins are its front.
-/

namespace ClassLang

open Terminal Rule

/-! ### Fronts of rules -/

namespace Phrase

def classFront : Phrase := maybe properties ++ kwClass ++ identifier

def memberFront : Phrase := maybe kwStatic ++ typeSpelling ++ identifier

def methodFront : Phrase := memberFront ++ leftParen

def argumentFront : Phrase := maybe properties ++ typeSpelling ++ identifier

def propertyFront : Phrase := maybe kwMeta ++ identifier

/-- Any number of items, each with a comma behind it. -/
def ended (p : Phrase) : Phrase := many (p ++ comma)

end Phrase

open Phrase

namespace Derives

variable {p q : Phrase} {ts : List Token} {ps : List Tree}

theorem many_tail {o : Phrase} (h : Derives (o ++ .many (p ++ q) ++ p ++ q) ts ps) :
    Derives (o ++ .many (p ++ q)) ts ps := by
  obtain ⟨_, _, _, _, ho, hr, rfl, rfl⟩ := h.assoc_seq.assoc_seq.seq_inv
  obtain ⟨_, _, _, _, hm, hq, rfl, rfl⟩ := hr.seq_inv
  exact ho.append (hm.many_snoc hq)

theorem separated_of_ended (h : Derives (p ++ ended q ++ q) ts ps) :
    Derives (p ++ separated q) ts ps := by
  obtain ⟨_, _, _, _, hp, hr, rfl, rfl⟩ := h.assoc_seq.seq_inv
  exact hp.append hr.many_shift

end Derives

/-! ### What reaches a context -/

def ClassContext.Before (r : StartRule) : ClassContext → List Token → Prop
  | alone => Begun r .classDecl
  | inUnit ps => Follows (Begun r .unit) (many classDecl) ps

def BodyContext.Before (r : StartRule) : BodyContext → List Token → Prop
  | alone => Begun r .body
  | ofClass head outer =>
    Follows (outer.Before r) (classFront ++ maybe inheritance ++ leftBrace) head
  | ofLoneBlock lists brace =>
    Follows (Follows (Begun r .declaration) (many properties) lists) leftBrace [brace]
  | ofBlock lists brace ps outer =>
    Follows (Follows (Follows (outer.Before r) (many declaration) ps) (many properties) lists)
      leftBrace [brace]

def DeclarationContext.Before (r : StartRule) : DeclarationContext → List Token → Prop
  | alone => Begun r .declaration
  | inBody ps outer => Follows (outer.Before r) (many declaration) ps

def MemberContext.Before (r : StartRule) : MemberContext → List Token → Prop
  | loneField => Begun r .fieldDecl
  | loneMethod => Begun r .methodDecl
  | ofDeclaration lists outer => Follows (outer.Before r) (many properties) lists

/-- What reaches the opening parenthesis of a method. -/
def ArgumentContext.Opened (r : StartRule) (c : ArgumentContext) (ts : List Token) : Prop :=
  c.outer.allowsMethod = true ∧ Follows (c.outer.Before r) methodFront c.method ts

def ArgumentContext.Before (r : StartRule) (c : ArgumentContext) : List Token → Prop :=
  Follows (c.Opened r) (ended argument) c.before

def PropertyListContext.Before (r : StartRule) : PropertyListContext → List Token → Prop
  | alone => Begun r .properties
  | ofClass outer => outer.Before r
  | ofDeclaration lists outer => Follows (outer.Before r) (many properties) lists
  | ofArgument outer => outer.Before r

def PropertyContext.Before (r : StartRule) : PropertyContext → List Token → Prop
  | alone => Begun r .property
  | inList ps outer => Follows (outer.Before r) (leftBracket ++ ended property) ps

def SpellingContext.Before (r : StartRule) : SpellingContext → List Token → Prop
  | ofMember static outer => Follows (outer.Before r) (maybe kwStatic) [static]
  | ofArgument ps outer => Follows (outer.Before r) (maybe properties) [ps]

def TypeContext.Before (r : StartRule) : TypeContext → List Token → Prop
  | alone => Begun r .typeDecl
  | ofSpelling const outer => Follows (outer.Before r) (maybe kwConst) [const]
  | inMatrix opening outer => Follows (outer.Before r) matrixOpen [opening]

def ValueContext.Before (r : StartRule) : ValueContext → List Token → Prop
  | alone => Begun r .value
  | ofProperty ps outer => Follows (outer.Before r) (propertyFront ++ equals) ps
  | ofField ps outer => fun ts =>
    outer.allowsField = true ∧ Follows (outer.Before r) (memberFront ++ equals) ps ts
  | ofArgument ps outer => Follows (outer.Before r) (argumentFront ++ equals) ps

/-! ### What reaches a point -/

def Point.Reached (r : StartRule) : Point → List Token → Prop
  | unit ps => Follows (Begun r .unit) (many classDecl) ps
  | loneClass => Begun r .classDecl
  | classKeyword list c => Follows (c.Before r) properties [list]
  | className ps c => Follows (c.Before r) (maybe properties ++ kwClass) ps
  | classHead ps c => Follows (c.Before r) classFront ps
  | base head ps c =>
    Follows (Follows (c.Before r) classFront head) (colon ++ ended identifier) ps
  | bases head ps c =>
    Follows (Follows (c.Before r) classFront head) (colon ++ ended identifier ++ identifier) ps
  | body ps c => Follows (c.Before r) (many Rule.declaration) ps
  | loneDeclaration => Begun r .declaration
  | declaration lists c => Follows (c.Before r) (many properties) lists
  | member c => c.Before r
  | spelling c => c.Before r
  | type c => c.Before r
  | typeName ps c => Follows (c.Before r) Rule.typeName.phrase ps
  | typeNamePart ps c => Follows (c.Before r) (Rule.typeName.phrase ++ doubleColon) ps
  | suffix tree c => Follows (c.Before r) .type [tree]
  | arrayEnd tree bracket c => Follows (c.Before r) (.type ++ leftBracket) [tree, bracket]
  | memberName ps c => Follows (c.Before r) memberFront ps
  | fieldEnd ps c => fun ts =>
    c.allowsField = true ∧ Follows (c.Before r) (memberFront ++ initial) ps ts
  | firstArgument c => fun ts => c.before = [] ∧ c.Opened r ts
  | nextArgument c => c.Before r
  | argumentType list c => Follows (c.Before r) properties [list]
  | argumentName ps c => Follows (c.Before r) argumentFront ps
  | argumentEnd c => Follows (c.Opened r) (ended argument ++ argument) c.before
  | methodEnd ps c => fun ts =>
    c.allowsMethod = true ∧
      Follows (c.Before r) (methodFront ++ maybe arguments ++ rightParen) ps ts
  | lonePropertyList => Begun r .properties
  | property c => c.Before r
  | propertyName mark c => Follows (c.Before r) kwMeta [mark]
  | propertyHead ps c => Follows (c.Before r) propertyFront ps
  | propertyEnd ps c =>
    Follows (c.Before r) (leftBracket ++ ended Rule.property ++ Rule.property) ps
  | value c => c.Before r
  | done tree => fun ts => Derives r.phrase ts [tree]

end ClassLang
