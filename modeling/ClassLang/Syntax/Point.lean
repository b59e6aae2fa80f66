import ClassLang.Syntax.Tree

/-!
# Reading points

Where the reading of a text stands between two tokens. A point says what of the innermost
construct has been read, as the list of its pieces, and its context says what surrounds that
construct: each context holds the pieces read so far of the construct around it and the context of
that one in turn. Only blocks and opened matrices nest without bound.

`alone` is the context of the construct that the whole text is read as.
-/

namespace ClassLang

inductive ClassContext where
  | alone
  | inUnit (before : List Tree)

/-- What surrounds a body: a class, or a block that is one of the declarations of a body again. -/
inductive BodyContext where
  | alone
  | ofClass (head : List Tree) (outer : ClassContext)
  | ofLoneBlock (lists : List Tree) (brace : Tree)
  | ofBlock (lists : List Tree) (brace : Tree) (before : List Tree) (outer : BodyContext)

inductive DeclarationContext where
  | alone
  | inBody (before : List Tree) (outer : BodyContext)

/-- What surrounds a field or a method. Alone it is decided beforehand which of the two it is. -/
inductive MemberContext where
  | loneField
  | loneMethod
  | ofDeclaration (lists : List Tree) (outer : DeclarationContext)

/-- What surrounds the arguments of a method: the method up to its parenthesis, and the arguments
read before. -/
structure ArgumentContext where
  method : List Tree
  before : List Tree
  outer : MemberContext

inductive PropertyListContext where
  | alone
  | ofClass (outer : ClassContext)
  | ofDeclaration (lists : List Tree) (outer : DeclarationContext)
  | ofArgument (outer : ArgumentContext)

inductive PropertyContext where
  | alone
  | inList (before : List Tree) (outer : PropertyListContext)

inductive SpellingContext where
  | ofMember (static : Tree) (outer : MemberContext)
  | ofArgument (properties : Tree) (outer : ArgumentContext)

inductive TypeContext where
  | alone
  | ofSpelling (const : Tree) (outer : SpellingContext)
  | inMatrix (opening : Tree) (outer : TypeContext)

/-- What surrounds a value: whatever ends with it, up to the equals sign. -/
inductive ValueContext where
  | alone
  | ofProperty (pieces : List Tree) (outer : PropertyContext)
  | ofField (pieces : List Tree) (outer : MemberContext)
  | ofArgument (pieces : List Tree) (outer : ArgumentContext)

/-- A place between two tokens. -/
inductive Point where
  /-- Between the classes of a unit. -/
  | unit (before : List Tree)
  /-- Before a class that is read alone. -/
  | loneClass
  /-- After the property list of a class. -/
  | classKeyword (properties : Tree) (context : ClassContext)
  /-- After the keyword of a class. -/
  | className (pieces : List Tree) (context : ClassContext)
  /-- After the name of a class. -/
  | classHead (pieces : List Tree) (context : ClassContext)
  /-- After the colon or a comma between bases. -/
  | base (head pieces : List Tree) (context : ClassContext)
  /-- After a base. -/
  | bases (head pieces : List Tree) (context : ClassContext)
  /-- Between the declarations of a body. -/
  | body (before : List Tree) (context : BodyContext)
  /-- Before a declaration that is read alone. -/
  | loneDeclaration
  /-- After a property list of a declaration. -/
  | declaration (lists : List Tree) (context : DeclarationContext)
  /-- Before a field or method that is read alone. -/
  | member (context : MemberContext)
  /-- After the static mark. -/
  | spelling (context : SpellingContext)
  /-- Where nothing but a type may follow. -/
  | type (context : TypeContext)
  /-- After a name in the name of a type. -/
  | typeName (pieces : List Tree) (context : TypeContext)
  /-- After a double colon in the name of a type. -/
  | typeNamePart (pieces : List Tree) (context : TypeContext)
  /-- After a type that is not just a name. -/
  | suffix (type : Tree) (context : TypeContext)
  /-- After a type and an opening bracket. -/
  | arrayEnd (type bracket : Tree) (context : TypeContext)
  /-- After the name of a field or method. -/
  | memberName (pieces : List Tree) (context : MemberContext)
  /-- After the value of a field. -/
  | fieldEnd (pieces : List Tree) (context : MemberContext)
  /-- After the opening parenthesis of a method. -/
  | firstArgument (context : ArgumentContext)
  /-- After a comma between arguments. -/
  | nextArgument (context : ArgumentContext)
  /-- After the property list of an argument. -/
  | argumentType (properties : Tree) (context : ArgumentContext)
  /-- After the name of an argument. -/
  | argumentName (pieces : List Tree) (context : ArgumentContext)
  /-- After an argument. -/
  | argumentEnd (context : ArgumentContext)
  /-- After the closing parenthesis of a method. -/
  | methodEnd (pieces : List Tree) (context : MemberContext)
  /-- Before a property list that is read alone. -/
  | lonePropertyList
  /-- Before a property. -/
  | property (context : PropertyContext)
  /-- After the meta mark. -/
  | propertyName (mark : Tree) (context : PropertyContext)
  /-- After the name of a property. -/
  | propertyHead (pieces : List Tree) (context : PropertyContext)
  /-- After a property in a list. -/
  | propertyEnd (before : List Tree) (context : PropertyListContext)
  /-- Where nothing but a value may follow. -/
  | value (context : ValueContext)
  /-- After the whole construct. -/
  | done (tree : Tree)

def StartRule.point : StartRule → Point
  | unit => .unit []
  | classDecl => .loneClass
  | properties => .lonePropertyList
  | property => .property .alone
  | body => .body [] .alone
  | declaration => .loneDeclaration
  | fieldDecl => .member .loneField
  | methodDecl => .member .loneMethod
  | typeDecl => .type .alone
  | value => .value .alone

end ClassLang
