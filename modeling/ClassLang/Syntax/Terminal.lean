/-!
# Terminals and rules

The vocabulary of the grammar: the terminals that tokens belong to, and the rules that nodes of a
syntax tree are named for. Keywords and punctuation have one spelling each; the other terminals
have many.
-/

namespace ClassLang

inductive Terminal where
  | kwClass
  | kwStatic
  | kwConst
  | kwMeta
  | kwNullptr
  | matrixOpen
  | bool
  | identifier
  | char
  | float
  | integer
  | string
  | comma
  | colon
  | doubleColon
  | semicolon
  | equals
  | leftBrace
  | rightBrace
  | leftBracket
  | rightBracket
  | leftParen
  | rightParen
  | star
  | doubleStar
  | ampersand
  | greater
  deriving DecidableEq, Repr

namespace Terminal

/-- All terminals, in the order in which they are tried where several could start: an opened
matrix before a name, a number with a point before one without, and the doubled signs before the
single ones. -/
def all : List Terminal :=
  [matrixOpen, float, doubleStar, doubleColon, kwClass, kwStatic, kwConst, kwMeta, kwNullptr, bool,
    identifier, char, integer, string, comma, colon, semicolon, equals, leftBrace, rightBrace,
    leftBracket, rightBracket, leftParen, rightParen, star, ampersand, greater]

theorem mem_all (t : Terminal) : t ∈ all := by
  cases t <;> decide

/-- The only spelling of a keyword or of punctuation. -/
def spelling? : Terminal → Option String
  | kwClass => some "class"
  | kwStatic => some "static"
  | kwConst => some "const"
  | kwMeta => some "meta"
  | kwNullptr => some "nullptr"
  | comma => some ","
  | colon => some ":"
  | doubleColon => some "::"
  | semicolon => some ";"
  | equals => some "="
  | leftBrace => some "\x7b"
  | rightBrace => some "\x7d"
  | leftBracket => some "["
  | rightBracket => some "]"
  | leftParen => some "("
  | rightParen => some ")"
  | star => some "*"
  | doubleStar => some "**"
  | ampersand => some "&"
  | greater => some ">"
  | _ => none

/-- The name under which a token of this terminal appears in a syntax tree; punctuation does not
appear there. -/
def name? : Terminal → Option String
  | kwClass => some "KW_CLASS"
  | kwStatic => some "KW_STATIC"
  | kwConst => some "KW_CONST"
  | kwMeta => some "KW_META"
  | kwNullptr => some "KW_NULLPTR"
  | matrixOpen => some "MATRIX_OPEN"
  | bool => some "BOOL"
  | identifier => some "IDENTIFIER"
  | char => some "CHAR"
  | float => some "FLOAT"
  | integer => some "INTEGER"
  | string => some "STRING"
  | _ => none

/-- Whether tokens of a terminal are left out of syntax trees. -/
def isPunctuation (t : Terminal) : Bool := t.name?.isNone

/-- Whether a terminal is a word that could also be a name. -/
def isKeyword : Terminal → Bool
  | kwClass => true
  | kwStatic => true
  | kwConst => true
  | kwMeta => true
  | kwNullptr => true
  | _ => false

def isLiteral : Terminal → Bool
  | bool => true
  | char => true
  | float => true
  | integer => true
  | string => true
  | kwNullptr => true
  | _ => false

end Terminal

inductive Rule where
  | unit
  | classDecl
  | inheritance
  | body
  | declaration
  | blockDecl
  | fieldDecl
  | methodDecl
  | arguments
  | argument
  | typeSpelling
  | typeName
  | pointerType
  | doublePointerType
  | referenceType
  | arrayType
  | matrixType
  | properties
  | property
  | value
  deriving DecidableEq, Repr

namespace Rule

def all : List Rule :=
  [unit, classDecl, inheritance, body, declaration, blockDecl, fieldDecl, methodDecl, arguments,
    argument, typeSpelling, typeName, pointerType, doublePointerType, referenceType, arrayType,
    matrixType, properties, property, value]

theorem mem_all (r : Rule) : r ∈ all := by
  cases r <;> decide

def name : Rule → String
  | unit => "moho"
  | classDecl => "class_decl"
  | inheritance => "inheritance"
  | body => "body"
  | declaration => "declaration"
  | blockDecl => "block_decl"
  | fieldDecl => "field_decl"
  | methodDecl => "method_decl"
  | arguments => "arguments"
  | argument => "argument"
  | typeSpelling => "type_spelling"
  | typeName => "type_name"
  | pointerType => "pointer_type"
  | doublePointerType => "double_pointer_type"
  | referenceType => "reference_type"
  | arrayType => "array_type"
  | matrixType => "matrix_type"
  | properties => "properties"
  | property => "property"
  | value => "value"

end Rule

/-- What a text may be read as. -/
inductive StartRule where
  | unit
  | classDecl
  | properties
  | property
  | body
  | declaration
  | fieldDecl
  | methodDecl
  | typeDecl
  | value
  deriving DecidableEq, Repr

namespace StartRule

def all : List StartRule :=
  [unit, classDecl, properties, property, body, declaration, fieldDecl, methodDecl, typeDecl,
    value]

def name : StartRule → String
  | unit => "moho"
  | classDecl => "class_decl"
  | properties => "properties"
  | property => "property"
  | body => "body"
  | declaration => "declaration"
  | fieldDecl => "field_decl"
  | methodDecl => "method_decl"
  | typeDecl => "type_decl"
  | value => "value"

def ofName? (name : String) : Option StartRule := all.find? fun r => r.name == name

theorem ofName?_name (r : StartRule) : ofName? r.name = some r := by
  cases r <;> rfl

end StartRule

end ClassLang
