import ClassLang.Proofs.Syntax.Accepts
import ClassLang.Proofs.Syntax.Relocation
import ClassLang.Syntax.Progress

/-!
# Reading inside a frame

A text may be read where more has been read before it: behind other classes of a unit, or behind
property lists of a declaration. The frame says what stands there and how trees are recast: their
ranges go elsewhere, for instance. It turns each reading point of the text by itself into the point
inside the frame, and steps, acceptable terminals and trees correspond. Main statement:
`Point.step_frame`.
-/

namespace ClassLang

/-- What stands before a text, and what becomes of its tokens and trees. -/
structure Frame extends Recast where
  /-- The classes before those of a unit. -/
  classes : List Tree
  /-- The property lists before those of a declaration that is read alone. -/
  lists : List Tree

/-! ### Trees and points inside a frame -/

namespace Frame

variable (f : Frame)

/-- The tree of a whole text inside a frame. -/
def root (t : Tree) : Tree :=
  match t with
  | .node (.known .unit) _ _ => (f.tree t).behind f.classes
  | .node (.known .declaration) _ _ => (f.tree t).behind f.lists
  | _ => f.tree t

theorem root_unit (ps : List Tree) :
    f.root (Tree.close .unit ps) = Tree.close .unit (f.classes ++ ps.map f.tree) := by
  rw [← Tree.behind_close, ← f.tree_close]
  rfl

theorem root_declaration (ps : List Tree) :
    f.root (Tree.close .declaration ps) = Tree.close .declaration (f.lists ++ ps.map f.tree) := by
  rw [← Tree.behind_close, ← f.tree_close]
  rfl

theorem root_close (r : Rule) (hu : r ≠ .unit) (hd : r ≠ .declaration) (ps : List Tree) :
    f.root (Tree.close r ps) = Tree.close r (ps.map f.tree) := by
  rw [← f.tree_close]
  cases r <;> first | rfl | exact absurd rfl hu | exact absurd rfl hd

end Frame

def ClassContext.frame (f : Frame) : ClassContext → ClassContext
  | alone => alone
  | inUnit before => inUnit (f.classes ++ before.map f.tree)

def BodyContext.frame (f : Frame) : BodyContext → BodyContext
  | alone => alone
  | ofClass head outer => ofClass (head.map f.tree) (outer.frame f)
  | ofLoneBlock lists brace => ofLoneBlock (f.lists ++ lists.map f.tree) (f.tree brace)
  | ofBlock lists brace before outer =>
    ofBlock (lists.map f.tree) (f.tree brace) (before.map f.tree) (outer.frame f)

namespace DeclarationContext

def frame (f : Frame) : DeclarationContext → DeclarationContext
  | alone => alone
  | inBody before outer => inBody (before.map f.tree) (outer.frame f)

/-- The property lists of a declaration inside a frame. -/
def lists (f : Frame) : DeclarationContext → List Tree → List Tree
  | alone, ts => f.lists ++ ts.map f.tree
  | inBody _ _, ts => ts.map f.tree

theorem lists_append (f : Frame) (c : DeclarationContext) (ts us : List Tree) :
    c.lists f (ts ++ us) = c.lists f ts ++ us.map f.tree := by
  cases c <;> simp [lists]

end DeclarationContext

def MemberContext.frame (f : Frame) : MemberContext → MemberContext
  | loneField => loneField
  | loneMethod => loneMethod
  | ofDeclaration lists outer => ofDeclaration (outer.lists f lists) (outer.frame f)

def ArgumentContext.frame (f : Frame) (c : ArgumentContext) : ArgumentContext :=
  ⟨c.method.map f.tree, c.before.map f.tree, c.outer.frame f⟩

def PropertyListContext.frame (f : Frame) : PropertyListContext → PropertyListContext
  | alone => alone
  | ofClass outer => ofClass (outer.frame f)
  | ofDeclaration lists outer => ofDeclaration (outer.lists f lists) (outer.frame f)
  | ofArgument outer => ofArgument (outer.frame f)

def PropertyContext.frame (f : Frame) : PropertyContext → PropertyContext
  | alone => alone
  | inList before outer => inList (before.map f.tree) (outer.frame f)

def SpellingContext.frame (f : Frame) : SpellingContext → SpellingContext
  | ofMember static outer => ofMember (f.tree static) (outer.frame f)
  | ofArgument properties outer => ofArgument (f.tree properties) (outer.frame f)

def TypeContext.frame (f : Frame) : TypeContext → TypeContext
  | alone => alone
  | ofSpelling const outer => ofSpelling (f.tree const) (outer.frame f)
  | inMatrix opening outer => inMatrix (f.tree opening) (outer.frame f)

def ValueContext.frame (f : Frame) : ValueContext → ValueContext
  | alone => alone
  | ofProperty pieces outer => ofProperty (pieces.map f.tree) (outer.frame f)
  | ofField pieces outer => ofField (pieces.map f.tree) (outer.frame f)
  | ofArgument pieces outer => ofArgument (pieces.map f.tree) (outer.frame f)

/-- The point of a text inside a frame. -/
def Point.frame (f : Frame) : Point → Point
  | unit before => unit (f.classes ++ before.map f.tree)
  | loneClass => loneClass
  | classKeyword properties context => classKeyword (f.tree properties) (context.frame f)
  | className pieces context => className (pieces.map f.tree) (context.frame f)
  | classHead pieces context => classHead (pieces.map f.tree) (context.frame f)
  | base head pieces context => base (head.map f.tree) (pieces.map f.tree) (context.frame f)
  | bases head pieces context => bases (head.map f.tree) (pieces.map f.tree) (context.frame f)
  | body before context => body (before.map f.tree) (context.frame f)
  | loneDeclaration =>
    match f.lists with
    | [] => loneDeclaration
    | list :: lists => declaration (list :: lists) .alone
  | declaration lists context => declaration (context.lists f lists) (context.frame f)
  | member context => member (context.frame f)
  | spelling context => spelling (context.frame f)
  | type context => type (context.frame f)
  | typeName pieces context => typeName (pieces.map f.tree) (context.frame f)
  | typeNamePart pieces context => typeNamePart (pieces.map f.tree) (context.frame f)
  | suffix inner context => suffix (f.tree inner) (context.frame f)
  | arrayEnd inner bracket context => arrayEnd (f.tree inner) (f.tree bracket) (context.frame f)
  | memberName pieces context => memberName (pieces.map f.tree) (context.frame f)
  | fieldEnd pieces context => fieldEnd (pieces.map f.tree) (context.frame f)
  | firstArgument context => firstArgument (context.frame f)
  | nextArgument context => nextArgument (context.frame f)
  | argumentType properties context => argumentType (f.tree properties) (context.frame f)
  | argumentName pieces context => argumentName (pieces.map f.tree) (context.frame f)
  | argumentEnd context => argumentEnd (context.frame f)
  | methodEnd pieces context => methodEnd (pieces.map f.tree) (context.frame f)
  | lonePropertyList => lonePropertyList
  | property context => property (context.frame f)
  | propertyName mark context => propertyName (f.tree mark) (context.frame f)
  | propertyHead pieces context => propertyHead (pieces.map f.tree) (context.frame f)
  | propertyEnd before context => propertyEnd (before.map f.tree) (context.frame f)
  | value context => value (context.frame f)
  | done tree => done (f.root tree)

namespace Point

variable (f : Frame)

/-! ### Constructs that are complete -/

theorem endClass_frame (ps : List Tree) (c : ClassContext) :
    endClass (Tree.close .classDecl (ps.map f.tree)) (c.frame f) =
      (endClass (Tree.close .classDecl ps) c).frame f := by
  cases c with
  | alone => exact congrArg done (f.root_close .classDecl nofun nofun ps).symm
  | inUnit before => simp [endClass, frame, ClassContext.frame, f.tree_close]

theorem endDeclaration_frame (ps : List Tree) (c : DeclarationContext) :
    endDeclaration (c.lists f ps) (c.frame f) = (endDeclaration ps c).frame f := by
  cases c with
  | alone => exact congrArg done (f.root_declaration ps).symm
  | inBody before outer =>
    simp [endDeclaration, frame, DeclarationContext.frame, DeclarationContext.lists, f.tree_close]

theorem endMember_frame {r : Rule} (hu : r ≠ .unit) (hd : r ≠ .declaration) (ps : List Tree)
    (c : MemberContext) :
    endMember (Tree.close r (ps.map f.tree)) (c.frame f) =
      (endMember (Tree.close r ps) c).frame f := by
  cases c with
  | loneField => exact congrArg done (f.root_close r hu hd ps).symm
  | loneMethod => exact congrArg done (f.root_close r hu hd ps).symm
  | ofDeclaration lists outer =>
    simp [endMember, MemberContext.frame, ← endDeclaration_frame, outer.lists_append, f.tree_close]

theorem endBlock_frame (lists ps : List Tree) (brace close : Tree) (c : DeclarationContext) :
    endBlock (c.lists f lists) (f.tree brace) (Tree.close .body (ps.map f.tree)) (f.tree close)
        (c.frame f) =
      (endBlock lists brace (Tree.close .body ps) close c).frame f := by
  simp [endBlock, ← endDeclaration_frame, c.lists_append, f.tree_close]

theorem endBody_frame (ps : List Tree) (close : Tree) (c : BodyContext) :
    endBody (ps.map f.tree) (f.tree close) (c.frame f) = (endBody ps close c).map (frame f) := by
  cases c with
  | alone => rfl
  | ofClass head outer =>
    simp [endBody, BodyContext.frame, ← endClass_frame, f.tree_close]
  | ofLoneBlock lists brace => exact congrArg some (endBlock_frame f lists ps brace close .alone)
  | ofBlock lists brace before outer =>
    exact congrArg some (endBlock_frame f lists ps brace close (.inBody before outer))

theorem endPropertyList_frame (ps : List Tree) (c : PropertyListContext) :
    endPropertyList (ps.map f.tree) (c.frame f) = (endPropertyList ps c).frame f := by
  cases c with
  | alone => exact congrArg done (f.root_close .properties nofun nofun ps).symm
  | ofDeclaration lists outer =>
    simp [endPropertyList, PropertyListContext.frame, frame, outer.lists_append, f.tree_close]
  | _ => simp [endPropertyList, PropertyListContext.frame, frame, f.tree_close]

theorem endProperty_frame (ps : List Tree) (c : PropertyContext) :
    endProperty (ps.map f.tree) (c.frame f) = (endProperty ps c).frame f := by
  cases c with
  | alone => exact congrArg done (f.root_close .property nofun nofun ps).symm
  | inList before outer => simp [endProperty, PropertyContext.frame, frame, f.tree_close]

theorem endArgument_frame (ps : List Tree) (c : ArgumentContext) :
    endArgument (ps.map f.tree) (c.frame f) = (endArgument ps c).frame f := by
  simp [endArgument, ArgumentContext.frame, frame, f.tree_close]

theorem endValue_frame (ps : List Tree) (c : ValueContext) :
    endValue (Tree.close .value (ps.map f.tree)) (c.frame f) =
      (endValue (Tree.close .value ps) c).frame f := by
  cases c with
  | alone => exact congrArg done (f.root_close .value nofun nofun ps).symm
  | ofProperty qs outer => simp [endValue, ValueContext.frame, ← endProperty_frame, f.tree_close]
  | ofField qs outer => simp [endValue, ValueContext.frame, frame, f.tree_close]
  | ofArgument qs outer => simp [endValue, ValueContext.frame, ← endArgument_frame, f.tree_close]

/-! ### Transitions -/

variable {f} {p p' q : Point} {t : Token}

theorem allowsField_frame (c : MemberContext) : (c.frame f).allowsField = c.allowsField := by
  cases c <;> rfl

theorem allowsMethod_frame (c : MemberContext) : (c.frame f).allowsMethod = c.allowsMethod := by
  cases c <;> rfl

/-- What a point turns into inside a frame. Where nothing has been read yet of a declaration it may
be what the point already is there. -/
theorem Turn.frame (h : Turn p p') : p.frame f = p'.frame f ∨ Turn (p.frame f) (p'.frame f) := by
  cases h with
  | loneDeclaration =>
    simp only [Point.frame, DeclarationContext.frame, DeclarationContext.lists, List.map_nil,
      List.append_nil]
    cases f.lists with
    | nil => exact Or.inr .loneDeclaration
    | cons list lists => exact Or.inl rfl
  | body ps c => exact Or.inr (.body _ _)
  | declaration lists c => exact Or.inr (.declaration _ _)
  | argumentType list c => exact Or.inr (.argumentType _ _)
  | firstArgument c => exact Or.inr (.firstArgument _)
  | member c =>
    simp only [Point.frame, SpellingContext.frame, f.tree_absent]
    exact Or.inr (.member _)
  | spelling c =>
    simp only [Point.frame, TypeContext.frame, f.tree_absent]
    exact Or.inr (.spelling _)
  | nextArgument c =>
    simp only [Point.frame, SpellingContext.frame, f.tree_absent]
    exact Or.inr (.nextArgument _)
  | typeName ps c =>
    simp only [Point.frame, f.tree_close]
    exact Or.inr (.typeName _ _)
  | argumentName ps c =>
    simp only [Point.frame, ArgumentContext.frame, f.tree_close, f.tree_absent, List.map_append,
      List.map_cons, List.map_nil]
    exact Or.inr (.argumentName _ _)
  | propertyHead ps before c =>
    simp only [Point.frame, f.tree_close, f.tree_absent, List.map_append, List.map_cons,
      List.map_nil]
    exact Or.inr (.propertyHead _ _ _)

theorem opening_frame (c : ClassContext) : c.opening.frame f = (c.frame f).opening := by
  cases c <;> rfl

theorem Transition.frame (h : Transition t p q) :
    Transition (f.token t) (p.frame f) (q.frame f) := by
  have hterminal := f.terminal_token t
  induction h with
  | turn hturn _ ih =>
    obtain heq | hturn := hturn.frame (f := f)
    · exact heq ▸ ih
    · exact .turn hturn ih
  | bareClass ht =>
    rw [opening_frame, Point.frame, List.map_cons, f.tree_absent, List.map_singleton, f.tree_token]
    exact .bareClass (hterminal.trans ht)
  | classList ht =>
    rw [opening_frame, Point.frame, PropertyContext.frame, List.map_singleton, f.tree_token]
    exact .classList (hterminal.trans ht)
  | @endBody ps c q ht hq =>
    refine .endBody (hterminal.trans ht) ?_
    rw [← f.tree_token, endBody_frame, hq, Option.map_some]
  | @block lists c ht =>
    have hbody : (c.blockBody lists t.tree).frame f =
        (c.frame f).blockBody (c.lists f lists) (f.token t).tree := by
      rw [← f.tree_token]
      cases c <;> rfl
    rw [Point.frame, hbody]
    exact .block (hterminal.trans ht)
  | @endField ps c ht ha =>
    rw [← endMember_frame f (r := .fieldDecl) nofun nofun, List.map_append, List.map_cons,
      f.tree_absent, List.map_singleton, f.tree_token]
    exact .endField (hterminal.trans ht) (allowsField_frame c ▸ ha)
  | fieldEnd ht =>
    rw [← endMember_frame f (r := .fieldDecl) nofun nofun, List.map_append, List.map_singleton,
      f.tree_token]
    exact .fieldEnd (hterminal.trans ht)
  | methodEnd ht =>
    rw [← endMember_frame f (r := .methodDecl) nofun nofun, List.map_append, List.map_singleton,
      f.tree_token]
    exact .methodEnd (hterminal.trans ht)
  | endList ht =>
    rw [← endPropertyList_frame, List.map_append, List.map_singleton, f.tree_token]
    exact .endList (hterminal.trans ht)
  | value ht =>
    rw [← endValue_frame, List.map_singleton, f.tree_token]
    exact .value (hterminal ▸ ht)
  | _ =>
    simp only [Point.frame, BodyContext.frame, ArgumentContext.frame, PropertyListContext.frame,
      PropertyContext.frame, SpellingContext.frame, TypeContext.frame, ValueContext.frame,
      List.map_append, List.map_cons, List.map_nil, f.tree_close, f.tree_absent, f.tree_token]
    constructor <;> simp_all [allowsField_frame, allowsMethod_frame]

/-! ### Steps -/

/-- A frame does not change what may follow. -/
theorem follows_frame (p : Point) : (p.frame f).follows = p.follows := by
  cases p with
  | body before c => cases c <;> rfl
  | loneDeclaration =>
    rw [frame]
    cases f.lists <;> rfl
  | typeName ps c => cases c <;> rfl
  | suffix tree c => cases c <;> rfl
  | memberName ps c =>
    simp only [frame, follows, accepts, allowsField_frame, allowsMethod_frame]
  | propertyHead ps c => cases c <;> rfl
  | _ => rfl

/-- A step inside a frame is the step of the text by itself. -/
theorem step_frame (f : Frame) (t : Token) (p : Point) :
    (p.frame f).step (f.token t) = (p.step t).map (frame f) := by
  cases hstep : p.step t with
  | some q => exact (transition_of_step hstep).frame.step
  | none =>
    have hnone : ¬((p.frame f).step (f.token t)).isSome := by
      rw [isSome_step_iff, follows_frame, f.terminal_token, ← isSome_step_iff, hstep]
      exact Bool.false_ne_true
    exact Option.not_isSome_iff_eq_none.1 hnone

variable {r : StartRule} {ts : List Token}

/-- A frame does not change what is looked for, except where nothing has been read yet of a
declaration behind property lists. -/
theorem accepts_frame (h : p ≠ .loneDeclaration ∨ f.lists = []) :
    (p.frame f).accepts = p.accepts := by
  cases p with
  | loneDeclaration =>
    obtain h | h := h
    · exact absurd rfl h
    · rw [frame, h]
  | body before c => cases c <;> rfl
  | typeName ps c => cases c <;> rfl
  | suffix tree c => cases c <;> rfl
  | memberName ps c => simp only [frame, accepts, allowsField_frame, allowsMethod_frame]
  | propertyHead ps c => cases c <;> rfl
  | _ => rfl

theorem finish?_frame (h : ∀ t, p ≠ .suffix t .alone) :
    (p.frame f).finish? = p.finish?.map f.root := by
  cases p with
  | unit before => exact congrArg some (f.root_unit before).symm
  | loneDeclaration =>
    rw [frame]
    cases f.lists <;> rfl
  | body before c =>
    cases c with
    | alone => exact congrArg some (f.root_close .body nofun nofun before).symm
    | _ => rfl
  | typeName ps c =>
    cases c with
    | alone => exact congrArg some (f.root_close .typeName nofun nofun ps).symm
    | _ => rfl
  | suffix tree c =>
    cases c with
    | alone => exact absurd rfl (h tree)
    | _ => rfl
  | propertyHead ps c =>
    cases c with
    | alone =>
      have hroot := f.root_close .property nofun nofun (ps ++ [Tree.absent])
      rw [List.map_append, List.map_singleton, f.tree_absent] at hroot
      exact congrArg some hroot.symm
    | inList before outer => rfl
  | _ => rfl

theorem isSome_finish?_frame (f : Frame) (p : Point) :
    (p.frame f).finish?.isSome = p.finish?.isSome := by
  cases p with
  | loneDeclaration =>
    rw [frame]
    cases f.lists <;> rfl
  | body before c => cases c <;> rfl
  | typeName ps c => cases c <;> rfl
  | suffix tree c => cases c <;> rfl
  | propertyHead ps c => cases c <;> rfl
  | _ => rfl

theorem ne_loneDeclaration_of_reached (h : p.Reached r ts) (hts : ts ≠ []) :
    p ≠ .loneDeclaration := by
  rintro rfl
  exact hts h.2

theorem ne_suffix_of_reached (h : p.Reached r ts) (hr : r ≠ .typeDecl) (t : Tree) :
    p ≠ .suffix t .alone := by
  rintro rfl
  exact hr (Follows.begun_eq h)

/-- Behind a step some of a declaration has been read. -/
theorem reached_step_ne {q : Point} {t : Token} (h : p.Reached r ts) (hq : p.step t = some q) :
    q.Reached r (ts ++ [t]) ∧ q ≠ .loneDeclaration := by
  have hreached := reached_step h hq
  refine ⟨hreached, ne_loneDeclaration_of_reached hreached ?_⟩
  intro hnil
  exact List.cons_ne_nil t [] (List.append_eq_nil_iff.1 hnil).2

end Point

end ClassLang
