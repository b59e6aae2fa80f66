import ClassLang.Syntax.Point

/-!
# One token further

`Point.step` moves a reading point over one token, if the token may stand there, and closes every
construct that the token completes. `Point.finish?` says whether the text may end at a point, and
gives the tree. `Point.accepts` lists the terminals that are looked for at a point. It holds all
that `step` moves over, and after a property list it holds what may follow any property list, so
there a word like `class` is a keyword whatever the list belongs to.
-/

namespace ClassLang

namespace DeclarationContext

/-- The surroundings of the body of a block that is this declaration. -/
def blockBody (lists : List Tree) (brace : Tree) : DeclarationContext → BodyContext
  | alone => .ofLoneBlock lists brace
  | inBody before outer => .ofBlock lists brace before outer

end DeclarationContext

namespace MemberContext

def allowsField : MemberContext → Bool
  | loneMethod => false
  | _ => true

def allowsMethod : MemberContext → Bool
  | loneField => false
  | _ => true

end MemberContext

namespace Point

/-! ### Constructs that are complete -/

def endClass (tree : Tree) : ClassContext → Point
  | .alone => done tree
  | .inUnit before => unit (before ++ [tree])

def endDeclaration (pieces : List Tree) (context : DeclarationContext) : Point :=
  let tree := Tree.close .declaration pieces
  match context with
  | .alone => done tree
  | .inBody before outer => body (before ++ [tree]) outer

def endMember (tree : Tree) : MemberContext → Point
  | .loneField => done tree
  | .loneMethod => done tree
  | .ofDeclaration lists outer => endDeclaration (lists ++ [tree]) outer

def endBlock (lists : List Tree) (brace tree close : Tree) (context : DeclarationContext) : Point :=
  endDeclaration (lists ++ [Tree.close .blockDecl [brace, tree, close]]) context

def endBody (before : List Tree) (close : Tree) (context : BodyContext) : Option Point :=
  let tree := Tree.close .body before
  match context with
  | .alone => none
  | .ofClass head outer => some (endClass (Tree.close .classDecl (head ++ [tree, close])) outer)
  | .ofLoneBlock lists brace => some (endBlock lists brace tree close .alone)
  | .ofBlock lists brace before outer =>
    some (endBlock lists brace tree close (.inBody before outer))

def endPropertyList (pieces : List Tree) (context : PropertyListContext) : Point :=
  let tree := Tree.close .properties pieces
  match context with
  | .alone => done tree
  | .ofClass outer => classKeyword tree outer
  | .ofDeclaration lists outer => declaration (lists ++ [tree]) outer
  | .ofArgument outer => argumentType tree outer

def endProperty (pieces : List Tree) (context : PropertyContext) : Point :=
  let tree := Tree.close .property pieces
  match context with
  | .alone => done tree
  | .inList before outer => propertyEnd (before ++ [tree]) outer

def endArgument (pieces : List Tree) (context : ArgumentContext) : Point :=
  argumentEnd { context with before := context.before ++ [Tree.close .argument pieces] }

def endValue (tree : Tree) : ValueContext → Point
  | .alone => done tree
  | .ofProperty pieces outer => endProperty (pieces ++ [tree]) outer
  | .ofField pieces outer => fieldEnd (pieces ++ [tree]) outer
  | .ofArgument pieces outer => endArgument (pieces ++ [tree]) outer

/-! ### Constructs that begin -/

def startType (context : TypeContext) (t : Token) : Option Point :=
  match t.terminal with
  | .identifier => some (typeName [t.tree] context)
  | .matrixOpen => some (type (.inMatrix t.tree context))
  | _ => none

def startSpelling (context : SpellingContext) (t : Token) : Option Point :=
  match t.terminal with
  | .kwConst => some (type (.ofSpelling t.tree context))
  | _ => startType (.ofSpelling .absent context) t

def startMember (context : MemberContext) (t : Token) : Option Point :=
  match t.terminal with
  | .kwStatic => some (spelling (.ofMember t.tree context))
  | _ => startSpelling (.ofMember .absent context) t

def startDeclaration (lists : List Tree) (context : DeclarationContext) (t : Token) :
    Option Point :=
  match t.terminal with
  | .leftBracket => some (property (.inList [t.tree] (.ofDeclaration lists context)))
  | .leftBrace => some (body [] (context.blockBody lists t.tree))
  | _ => startMember (.ofDeclaration lists context) t

def startClass (context : ClassContext) (t : Token) : Option Point :=
  match t.terminal with
  | .kwClass => some (className [.absent, t.tree] context)
  | .leftBracket => some (property (.inList [t.tree] (.ofClass context)))
  | _ => none

def startArgument (context : ArgumentContext) (t : Token) : Option Point :=
  match t.terminal with
  | .leftBracket => some (property (.inList [t.tree] (.ofArgument context)))
  | _ => startSpelling (.ofArgument .absent context) t

/-! ### Constructs that go on -/

def endType (tree : Tree) (context : TypeContext) (t : Token) : Option Point :=
  match context, t.terminal with
  | .inMatrix opening outer, .greater =>
    some (suffix (Tree.close .matrixType [opening, tree, t.tree]) outer)
  | .ofSpelling const (.ofMember static outer), .identifier =>
    some (memberName [static, Tree.close .typeSpelling [const, tree], t.tree] outer)
  | .ofSpelling const (.ofArgument properties outer), .identifier =>
    some (argumentName [properties, Tree.close .typeSpelling [const, tree], t.tree] outer)
  | _, _ => none

/-- A token behind a type: another layer, or its end. -/
def continueType (tree : Tree) (context : TypeContext) (t : Token) : Option Point :=
  match t.terminal with
  | .star => some (suffix (Tree.close .pointerType [tree, t.tree]) context)
  | .doubleStar => some (suffix (Tree.close .doublePointerType [tree, t.tree]) context)
  | .ampersand => some (suffix (Tree.close .referenceType [tree, t.tree]) context)
  | .leftBracket => some (arrayEnd tree t.tree context)
  | _ => endType tree context t

/-- A token behind the bases of a class, or behind its name if it has none. -/
def enterBody (head : List Tree) (context : ClassContext) (t : Token) : Option Point :=
  match t.terminal with
  | .leftBrace => some (body [] (.ofClass (head ++ [t.tree]) context))
  | _ => none

/-- A token behind a property of a list. -/
def continueList (before : List Tree) (context : PropertyListContext) (t : Token) :
    Option Point :=
  match t.terminal with
  | .comma => some (property (.inList (before ++ [t.tree]) context))
  | .rightBracket => some (endPropertyList (before ++ [t.tree]) context)
  | _ => none

/-- A token behind an argument. -/
def continueArguments (context : ArgumentContext) (t : Token) : Option Point :=
  match t.terminal with
  | .comma => some (nextArgument { context with before := context.before ++ [t.tree] })
  | .rightParen =>
    some (methodEnd (context.method ++ [Tree.close .arguments context.before, t.tree])
      context.outer)
  | _ => none

/-! ### All points -/

/-- The point behind one more token. -/
def step (p : Point) (t : Token) : Option Point :=
  match p with
  | unit before => startClass (.inUnit before) t
  | loneClass => startClass .alone t
  | classKeyword properties context =>
    match t.terminal with
    | .kwClass => some (className [properties, t.tree] context)
    | _ => none
  | className pieces context =>
    match t.terminal with
    | .identifier => some (classHead (pieces ++ [t.tree]) context)
    | _ => none
  | classHead pieces context =>
    match t.terminal with
    | .colon => some (base pieces [t.tree] context)
    | _ => enterBody (pieces ++ [.absent]) context t
  | base head pieces context =>
    match t.terminal with
    | .identifier => some (bases head (pieces ++ [t.tree]) context)
    | _ => none
  | bases head pieces context =>
    match t.terminal with
    | .comma => some (base head (pieces ++ [t.tree]) context)
    | _ => enterBody (head ++ [Tree.close .inheritance pieces]) context t
  | body before context =>
    match t.terminal with
    | .rightBrace => endBody before t.tree context
    | _ => startDeclaration [] (.inBody before context) t
  | loneDeclaration => startDeclaration [] .alone t
  | declaration lists context => startDeclaration lists context t
  | member context => startMember context t
  | spelling context => startSpelling context t
  | type context => startType context t
  | typeName pieces context =>
    match t.terminal with
    | .doubleColon => some (typeNamePart (pieces ++ [t.tree]) context)
    | _ => continueType (Tree.close .typeName pieces) context t
  | typeNamePart pieces context =>
    match t.terminal with
    | .identifier => some (typeName (pieces ++ [t.tree]) context)
    | _ => none
  | suffix tree context => continueType tree context t
  | arrayEnd tree bracket context =>
    match t.terminal with
    | .rightBracket => some (suffix (Tree.close .arrayType [tree, bracket, t.tree]) context)
    | _ => none
  | memberName pieces context =>
    match t.terminal, context.allowsField, context.allowsMethod with
    | .equals, true, _ => some (value (.ofField (pieces ++ [t.tree]) context))
    | .semicolon, true, _ =>
      some (endMember (Tree.close .fieldDecl (pieces ++ [.absent, t.tree])) context)
    | .leftParen, _, true => some (firstArgument ⟨pieces ++ [t.tree], [], context⟩)
    | _, _, _ => none
  | fieldEnd pieces context =>
    match t.terminal with
    | .semicolon => some (endMember (Tree.close .fieldDecl (pieces ++ [t.tree])) context)
    | _ => none
  | firstArgument context =>
    match t.terminal with
    | .rightParen => some (methodEnd (context.method ++ [.absent, t.tree]) context.outer)
    | _ => startArgument context t
  | nextArgument context => startArgument context t
  | argumentType properties context => startSpelling (.ofArgument properties context) t
  | argumentName pieces context =>
    match t.terminal with
    | .equals => some (value (.ofArgument (pieces ++ [t.tree]) context))
    | _ =>
      continueArguments
        { context with before := context.before ++ [Tree.close .argument (pieces ++ [.absent])] } t
  | argumentEnd context => continueArguments context t
  | methodEnd pieces context =>
    match t.terminal with
    | .semicolon => some (endMember (Tree.close .methodDecl (pieces ++ [t.tree])) context)
    | _ => none
  | lonePropertyList =>
    match t.terminal with
    | .leftBracket => some (property (.inList [t.tree] .alone))
    | _ => none
  | property context =>
    match t.terminal with
    | .kwMeta => some (propertyName t.tree context)
    | .identifier => some (propertyHead [.absent, t.tree] context)
    | _ => none
  | propertyName mark context =>
    match t.terminal with
    | .identifier => some (propertyHead [mark, t.tree] context)
    | _ => none
  | propertyHead pieces context =>
    match t.terminal, context with
    | .equals, _ => some (value (.ofProperty (pieces ++ [t.tree]) context))
    | _, .inList before outer =>
      continueList (before ++ [Tree.close .property (pieces ++ [.absent])]) outer t
    | _, .alone => none
  | propertyEnd before context => continueList before context t
  | value context =>
    if t.terminal.isLiteral then some (endValue (Tree.close .value [t.tree]) context) else none
  | done _ => none

/-- The tree of the whole text, if the text may end here. -/
def finish? : Point → Option Tree
  | unit before => some (Tree.close .unit before)
  | body before .alone => some (Tree.close .body before)
  | typeName pieces .alone => some (Tree.close .typeName pieces)
  | suffix tree .alone => some tree
  | propertyHead pieces .alone => some (Tree.close .property (pieces ++ [.absent]))
  | done tree => some tree
  | _ => none

/-! ### Acceptable terminals -/

def typeStarts : List Terminal := [.identifier, .matrixOpen]

def spellingStarts : List Terminal := .kwConst :: typeStarts

def memberStarts : List Terminal := .kwStatic :: spellingStarts

def declarationStarts : List Terminal := .leftBrace :: .leftBracket :: memberStarts

/-- What may follow a property list somewhere. -/
def listFollowers : List Terminal := .kwClass :: declarationStarts

def typeSuffixes : List Terminal := [.star, .doubleStar, .ampersand, .leftBracket]

/-- What may end a type. -/
def typeEnds : TypeContext → List Terminal
  | .alone => []
  | .ofSpelling _ _ => [.identifier]
  | .inMatrix _ _ => [.greater]

def literals : List Terminal := [.bool, .char, .float, .integer, .string, .kwNullptr]

/-- The terminals that are looked for at a point. -/
def accepts : Point → List Terminal
  | unit _ => [.kwClass, .leftBracket]
  | loneClass => [.kwClass, .leftBracket]
  | classKeyword _ _ => listFollowers
  | className _ _ => [.identifier]
  | classHead _ _ => [.colon, .leftBrace]
  | base _ _ _ => [.identifier]
  | bases _ _ _ => [.comma, .leftBrace]
  | body _ .alone => declarationStarts
  | body _ _ => .rightBrace :: declarationStarts
  | loneDeclaration => declarationStarts
  | declaration _ _ => listFollowers
  | member _ => memberStarts
  | spelling _ => spellingStarts
  | type _ => typeStarts
  | typeName _ context => .doubleColon :: (typeSuffixes ++ typeEnds context)
  | typeNamePart _ _ => [.identifier]
  | suffix _ context => typeSuffixes ++ typeEnds context
  | arrayEnd _ _ _ => [.rightBracket]
  | memberName _ context =>
    (if context.allowsField then [.equals, .semicolon] else []) ++
      (if context.allowsMethod then [.leftParen] else [])
  | fieldEnd _ _ => [.semicolon]
  | firstArgument _ => .rightParen :: .leftBracket :: spellingStarts
  | nextArgument _ => .leftBracket :: spellingStarts
  | argumentType _ _ => listFollowers
  | argumentName _ _ => [.equals, .comma, .rightParen]
  | argumentEnd _ => [.comma, .rightParen]
  | methodEnd _ _ => [.semicolon]
  | lonePropertyList => [.leftBracket]
  | property _ => [.kwMeta, .identifier]
  | propertyName _ _ => [.identifier]
  | propertyHead _ .alone => [.equals]
  | propertyHead _ (.inList _ _) => [.equals, .comma, .rightBracket]
  | propertyEnd _ _ => [.comma, .rightBracket]
  | value _ => literals
  | done _ => []

end Point

end ClassLang
