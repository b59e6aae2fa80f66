import ClassLang.Syntax.Terminal
import ClassLang.Text.Position

/-!
# Syntax trees

A tree is a node with children, a token, or the sign that an optional part is absent. Trees may
also come from elsewhere than a text, so labels that the grammar does not know are allowed, and
a node may lack a range. `Tree.close` builds the node of a rule from all pieces that were read for
it: the range covers every piece, the children are the pieces without punctuation.
-/

namespace ClassLang

/-- A label that the grammar knows, or any other name. -/
inductive Label (α : Type) where
  | known (a : α)
  | other (name : String)
  deriving DecidableEq, Repr

def Label.ofRuleName (name : String) : Label Rule :=
  match Rule.all.find? fun r => r.name == name with
  | some r => .known r
  | none => .other name

def Label.ruleName : Label Rule → String
  | .known r => r.name
  | .other name => name

def Label.ofTerminalName (name : String) : Label Terminal :=
  match Terminal.all.find? fun t => t.name? == some name with
  | some t => .known t
  | none => .other name

/-- The name on a token; punctuation bears its spelling. -/
def Label.terminalName : Label Terminal → String
  | .known t => (t.name?.or t.spelling?).getD ""
  | .other name => name

theorem Label.ofRuleName_name (r : Rule) : Label.ofRuleName r.name = .known r := by
  cases r <;> rfl

theorem Label.ruleName_ofRuleName (name : String) : (Label.ofRuleName name).ruleName = name := by
  unfold Label.ofRuleName
  split
  · rename_i r hr
    have := List.find?_some hr
    simpa [Label.ruleName] using this
  · rfl

inductive Tree where
  | node (rule : Label Rule) (range : Option Range) (children : List Tree)
  | token (kind : Label Terminal) (text : String) (range : Range)
  | absent

instance : Inhabited Tree := ⟨.absent⟩

namespace Tree

def range? : Tree → Option Range
  | node _ range _ => range
  | token _ _ range => some range
  | absent => none

def isPunctuation : Tree → Bool
  | token (.known t) _ _ => t.isPunctuation
  | _ => false

/-- The range from the first to the last piece that has one. -/
def cover (pieces : List Tree) : Option Range :=
  match pieces.findSome? range?, pieces.reverse.findSome? range? with
  | some first, some last => some ⟨first.start, last.stop⟩
  | _, _ => none

/-- The node of a rule, built from the pieces read for it. -/
def close (rule : Rule) (pieces : List Tree) : Tree :=
  node (.known rule) (cover pieces) (pieces.filter fun t => !t.isPunctuation)

end Tree

structure Token where
  terminal : Terminal
  text : String
  range : Range
  deriving DecidableEq

def Token.tree (t : Token) : Tree := .token (.known t.terminal) t.text t.range

end ClassLang
