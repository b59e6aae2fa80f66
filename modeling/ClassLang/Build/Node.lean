import ClassLang.Build.Shown

/-!
# Building declarations

`Tree.build` turns a syntax tree into parts, children before their node and from left to right, and
stops at the first fault. One function per rule says what its node gives. Spans and the written
form of types are cut out of the text. Nodes that no rule of the grammar is responsible for stay
trees, apart from a few names that are taken.
-/

namespace ClassLang

namespace Build

/-- A stretch of a text, as far as the text goes. -/
def slice (text : List Char) (range : Range) : List Char :=
  (text.drop range.start.offset).take (range.stop.offset - range.start.offset)

/-- Where a node stands: the text, and the range of the node if it has one. -/
structure Site where
  text : List Char
  range : Option Range

namespace Site

def span? (s : Site) : Option Span :=
  s.range.map fun r => .ofRange r (String.ofList (slice s.text r))

def refuse {α : Type} (s : Site) (cause : Fault) : Except Failure α :=
  .error (.fault cause s.span?)

end Site

/-- The characters between the first and the last one. -/
def inside (s : String) : String := String.ofList (s.toList.drop 1).dropLast

/-! ### Access to children -/

def misfit {α : Type} (rule : Rule) (cause : Misfit) : Except Failure α :=
  .error (.misfit (.known rule) cause)

/-- What a child holds as its value. -/
def held (rule : Rule) (p : Part) : Except Failure Part :=
  match p.held? with
  | some v => .ok v
  | none => misfit rule (.lacks p.kindName "value")

/-- The children of a child that has to be a tree. -/
def childrenOf (rule : Rule) (p : Part) : Except Failure (List Part) :=
  match p.children? with
  | some ps => .ok ps
  | none => misfit rule (.lacks p.kindName "children")

/-- The children of a child that may be absent. -/
def childrenOf? (rule : Rule) (p : Part) : Except Failure (List Part) :=
  if p.isAbsent then .ok [] else childrenOf rule p

/-- The refusal of a node that has the wrong number of children. -/
def count {α : Type} (rule : Rule) (expected got : Nat) : Except Failure α :=
  misfit rule (if got < expected then .tooFew expected got else .tooMany expected)

def pair (rule : Rule) : List Part → Except Failure (Part × Part)
  | [a, b] => .ok (a, b)
  | ps => count rule 2 ps.length

def triple (rule : Rule) : List Part → Except Failure (Part × Part × Part)
  | [a, b, c] => .ok (a, b, c)
  | ps => count rule 3 ps.length

def quadruple (rule : Rule) : List Part → Except Failure (Part × Part × Part × Part)
  | [a, b, c, d] => .ok (a, b, c, d)
  | ps => count rule 4 ps.length

def first (rule : Rule) (ps : List Part) : Except Failure Part :=
  match ps.head? with
  | some p => .ok p
  | none => misfit rule .empty

def last (rule : Rule) (ps : List Part) : Except Failure Part :=
  match ps.getLast? with
  | some p => .ok p
  | none => misfit rule .empty

/-! ### Values -/

def boolWords : List (String × Bool) := [("true", true), ("false", false)]

def literal (kind : Label Terminal) (text : String) : Except Fault Value :=
  match kind with
  | .known .bool =>
    match boolWords.lookup text with
    | some b => .ok (.bool b)
    | none => .error (.unknownBool text)
  | .known .char =>
    match Numeral.integer (inside text) with
    | .error cause => .error (.numeral cause)
    | .ok n =>
      match Value.ofByte? n with
      | some v => .ok v
      | none => .error (.charRange n)
  | .known .integer =>
    match Numeral.integer text with
    | .error cause => .error (.numeral cause)
    | .ok n => .ok (.integer n)
  | .known .float =>
    match Numeral.float text with
    | .error cause => .error (.numeral cause)
    | .ok x => .ok (.float x)
  | .known .string => .ok (.string (inside text))
  | .known .kwNullptr => .ok .nullptr
  | _ => .error .unknownLiteral

def value (ps : List Part) : Except Failure Part := do
  match ← first .value ps with
  | .token kind text range =>
    match literal kind text with
    | .ok v => .ok (.value v)
    | .error cause => .error (.fault cause (some (.ofRange range text)))
  | p => misfit .value (.lacks p.kindName "type")

def property (site : Site) (ps : List Part) : Except Failure Part := do
  let (mark, name, value) ← triple .property ps
  match name with
  | .token (.known .identifier) text _ => .ok (.property text value (!mark.isAbsent))
  | _ => site.refuse .propertyName

/-! ### Types -/

def typeName (ps : List Part) : Except Failure Part := do
  let names ← ps.mapM (held .typeName)
  match Part.textsFrom 0 names with
  | .ok names => .ok (.type (.ofName ("::".intercalate names)))
  | .error cause => misfit .typeName cause

/-- A layer around what comes last. -/
def layer (rule : Rule) (l : Layer) (ps : List Part) : Except Failure Part := do
  .ok (.layer l (← last rule ps))

/-- The spelling of a type: its words as they were written, comments aside. -/
def typeSpelling (site : Site) (ps : List Part) : Except Failure Part := do
  let (const, type) ← pair .typeSpelling ps
  match site.range with
  | none => misfit .typeSpelling (.lacks "Meta" "start_pos")
  | some r =>
    .ok (.spelling (String.ofList (Layout.collapse (slice site.text r))) type (!const.isAbsent))

/-! ### Members and blocks -/

def field (site : Site) (ps : List Part) : Except Failure Part := do
  let (static, spelling, name, value) ← quadruple .fieldDecl ps
  match spelling with
  | .spelling _ type isConst =>
    if isConst then
      match name.plain with
      | .ok name => site.refuse (.qualifiedField name)
      | .error cause => misfit .fieldDecl cause
    else
      .ok (.field (← held .fieldDecl name) type value [] (!static.isAbsent))
  | p => site.refuse (.inField p.shown)

def method (site : Site) (ps : List Part) : Except Failure Part := do
  let (static, spelling, name, arguments) ← quadruple .methodDecl ps
  match spelling with
  | .spelling text _ _ =>
    let arguments ← childrenOf? .methodDecl arguments
    .ok (.method (← held .methodDecl name) text arguments [] (!static.isAbsent))
  | p => site.refuse (.inMethod p.shown)

def argument (site : Site) (ps : List Part) : Except Failure Part := do
  let (properties, spelling, name, value) ← quadruple .argument ps
  match spelling, name with
  | .spelling text _ _, .token _ name _ =>
    .ok (.argument name text value (← childrenOf? .argument properties))
  | _, _ => site.refuse .malformedArgument

def block (site : Site) (ps : List Part) : Except Failure Part := do
  match ← first .blockDecl ps with
  | .tree (.known .body) _ children => .ok (.block [] children)
  | _ => site.refuse .malformedBlock

/-- A declaration takes over all property lists in front of it. -/
def declaration (site : Site) (ps : List Part) : Except Failure Part := do
  let p ← last .declaration ps
  if p.isDeclaration then
    let lists ← ps.dropLast.mapM (childrenOf .declaration)
    .ok (p.addProperties lists.flatten)
  else
    site.refuse (.inDeclaration p.shown)

/-! ### Classes -/

def inheritance (ps : List Part) : Except Failure Part := do
  .ok (.tree (.known .inheritance) none (← ps.mapM (held .inheritance)))

/-- What is known of a class while its children are gone through. -/
structure ClassDraft where
  name : String := ""
  bases : List Part := []
  properties : List Part := []
  inner : List Part := []

/-- One more child of a class. -/
def classChild (site : Site) (c : ClassDraft) : Part → Except Failure ClassDraft
  | .absent => .ok c
  | .tree (.known .properties) _ children => .ok { c with properties := children }
  | .tree (.known .inheritance) _ children => .ok { c with bases := children }
  | .tree (.known .body) _ children => .ok { c with inner := children }
  | .token (.known .kwClass) _ _ => .ok c
  | .token (.known .identifier) text _ => .ok { c with name := text }
  | p => site.refuse (.inClass p.shown)

def classDecl (site : Site) (ps : List Part) : Except Failure Part := do
  let c ← ps.foldlM (classChild site) {}
  if c.name.isEmpty then site.refuse .classNameMissing
  else .ok (.classDecl c.name c.bases c.properties c.inner)

/-- What the node of a rule gives for its built children. -/
def node (text : List Char) (rule : Rule) (range : Option Range) (ps : List Part) :
    Except Failure Part :=
  let site : Site := ⟨text, range⟩
  match rule with
  | .unit => .ok (.unit ps)
  | .classDecl => classDecl site ps
  | .inheritance => inheritance ps
  | .body => .ok (.tree (.known .body) none ps)
  | .declaration => declaration site ps
  | .blockDecl => block site ps
  | .fieldDecl => field site ps
  | .methodDecl => method site ps
  | .arguments => .ok (.tree (.known .arguments) none ps)
  | .argument => argument site ps
  | .typeSpelling => typeSpelling site ps
  | .typeName => typeName ps
  | .pointerType => layer .pointerType (.pointer .one) ps
  | .doublePointerType => layer .doublePointerType (.pointer .two) ps
  | .referenceType => layer .referenceType .reference ps
  | .arrayType => layer .arrayType .array ps
  | .matrixType => layer .matrixType .matrix ps
  | .properties => .ok (.tree (.known .properties) none ps)
  | .property => property site ps
  | .value => value ps

/-- What a node gives that no rule of the grammar is responsible for. The name `transform` is taken
for plain lists, and nodes named `span` or `text` are refused. -/
def foreign (name : String) (range : Option Range) (ps : List Part) : Except Failure Part :=
  if name = "transform" then .ok (.list ps)
  else if name = "span" then .error (.misfit (.other name) (.lacks "list" "empty"))
  else if name = "text" then .error (.misfit (.other name) (.notCallable "str"))
  else .ok (.tree (.other name) range ps)

end Build

namespace Tree

mutual

/-- Builds a tree over a text. -/
def build (text : List Char) : Tree → Except Failure Part
  | absent => .ok .absent
  | token kind s range => .ok (.token kind s range)
  | node rule range children =>
    match buildAll text children with
    | .error failure => .error failure
    | .ok parts =>
      match rule with
      | .known r => Build.node text r range parts
      | .other name => Build.foreign name range parts

def buildAll (text : List Char) : List Tree → Except Failure (List Part)
  | [] => .ok []
  | t :: ts =>
    match build text t with
    | .error failure => .error failure
    | .ok part =>
      match buildAll text ts with
      | .error failure => .error failure
      | .ok parts => .ok (part :: parts)

end

end Tree

end ClassLang
