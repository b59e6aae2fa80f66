import ClassLang.Proofs.Syntax.FramedReading

/-!
# Units one behind another

A unit of classes leaves the reader between two classes, where it starts. So a text that is read as
a unit can be followed by another on a new line: the second one is read like by itself, with its
positions shifted, and what it is read to comes behind the classes of the first (`read_joined`). A
rejection of the second text is a rejection of both, at the shifted place.
-/

namespace ClassLang

open ClassLang.Terminal

/-! ### Where a unit ends -/

namespace Point

variable {p q : Point} {t : Token} {ts : List Token} {tree : Tree}

/-- The brace that ends a unit ends the last class of it. -/
theorem unit_of_rightBrace (hp : p.Reached .unit ts) (ht : t.terminal = rightBrace)
    (hs : p.step t = some q) (hf : q.finish? = some tree) : ∃ before, q = unit before := by
  obtain ⟨before, context, rfl, hend⟩ := (transition_of_step hs).of_rightBrace ht
  obtain ⟨us, vs, -, hbefore, -⟩ := hp
  cases context with
  | alone => cases hend
  | ofClass head outer =>
    obtain rfl := Option.some.inj hend
    cases outer with
    | alone => exact absurd hbefore.begun_eq nofun
    | inUnit classes => exact ⟨_, rfl⟩
  | ofLoneBlock lists brace => exact absurd hbefore.join.begun_eq nofun
  | ofBlock lists brace declarations outer =>
    obtain rfl := Option.some.inj hend
    cases outer with
    | alone => exact absurd hbefore.join.join.begun_eq nofun
    | _ => cases hf

end Point

namespace DerivationTree

theorem last_class (d : DerivationTree (.rule .classDecl)) :
    ∃ ts t, d.tokens = ts ++ [t] ∧ t.terminal = rightBrace := by
  match d with
  | .rule (.seq e (.terminal t ht)) => exact ⟨e.tokens, t, rfl, ht⟩

theorem last_classes (d : DerivationTree (.many (.rule .classDecl))) :
    ∀ t ∈ d.tokens.getLast?, t.terminal = rightBrace := by
  match d with
  | .none => exact nofun
  | .more e rest =>
    intro t ht
    rw [tokens, List.getLast?_append] at ht
    rcases Option.or_eq_some_iff.1 ht with ht | ⟨-, ht⟩
    · exact last_classes rest t ht
    · obtain ⟨us, u, hus, hu⟩ := last_class e
      rw [hus, List.getLast?_concat] at ht
      exact Option.some.inj ht ▸ hu

theorem last_unit (d : DerivationTree (.rule .unit)) :
    ∀ t ∈ d.tokens.getLast?, t.terminal = rightBrace := by
  match d with
  | .rule e => exact last_classes e

end DerivationTree

theorem unit_of_trail {place : Position} {xs : List Piece} {tail : List Char} {q : Point}
    {tree : Tree} (h : Trail (.unit []) place xs tail q) (hf : q.finish? = some tree) :
    EndsInSign xs ∧ ∃ before, q = .unit before := by
  obtain ⟨d, htokens, -⟩ := h.exists_derivationTree (r := .unit) hf
  have hrun := h.run_tokensFrom
  have hlast : ∀ t ∈ (tokensFrom place xs).getLast?, t.terminal = rightBrace :=
    htokens ▸ d.last_unit
  have hsign : EndsInSign xs := endsInSign_of_tokens fun t ht => by rw [hlast t ht]; rfl
  cases hxs : xs.getLast? with
  | none =>
    obtain rfl := List.getLast?_eq_none_iff.1 hxs
    exact ⟨hsign, [], (Option.some.inj hrun).symm⟩
  | some x =>
    obtain ⟨ys, rfl⟩ := List.getLast?_eq_some_iff.1 hxs
    rw [tokensFrom_append, tokensFrom, tokensFrom] at hrun hlast
    have hx : x.terminal = rightBrace := hlast _ List.getLast?_concat
    obtain ⟨s, hys, hstep⟩ := Option.bind_eq_some_iff.1 ((Point.run_append _ _ _).symm.trans hrun)
    have hend : s.step (x.token (place.advance (weave ys []))) = some q := by
      rw [Point.run_cons] at hstep
      exact (Option.bind_eq_some_iff.1 hstep).elim fun q' hq => (Option.some.inj hq.2) ▸ hq.1
    have hreached := Point.reached_run StartRule.unit.reached_point hys
    exact ⟨hsign, Point.unit_of_rightBrace hreached hx hend hf⟩

namespace Reading

/-- Where the text may end, it does not matter where the last token starts. -/
theorem run_of_finish? {p : Point} {tree : Tree} (h : p.finish? = some tree)
    (last last' place : Position) (rest : List Char) :
    run ⟨p, last, place, rest⟩ = run ⟨p, last', place, rest⟩ := by
  refine run_eq_of_move_eq ?_
  simp only [move, moveOver, answerAtEnd, h]
  rfl

end Reading

/-- The frame of a text behind others on a new line. -/
def Frame.behind (text : List Char) (classes lists : List Tree) : Frame :=
  ⟨(Relocation.behind text).recast, classes, lists⟩

/-- A text on a new line behind a unit is read like by itself, behind the classes of the unit. -/
theorem read_joined {text : List Char} {tree : Tree} (h : StartRule.unit.read text = .ok tree) :
    ∃ classes, tree = Tree.close .unit classes ∧ ∀ other : List Char,
      StartRule.unit.read (text ++ '\n' :: other) =
        (Frame.behind text classes []).answer (text.length + 1) (text.count '\n' + 1)
          (StartRule.unit.read other) := by
  obtain ⟨q, htrail, hfinish⟩ := trail_of_run _ h
  obtain ⟨hsign, classes, rfl⟩ := unit_of_trail htrail hfinish
  refine ⟨classes, (Option.some.inj hfinish).symm, ?_⟩
  intro other
  obtain ⟨last, -, hrun⟩ := Reading.run_of_trail_newline htrail hsign .start other
  rw [Reading.weave_pieces] at hrun
  have hreached : (StartRule.unit.reading other).point.Reached .unit [] :=
    StartRule.unit.reached_point
  have hstart : StartRule.unit ≠ .typeDecl := nofun
  have hframe := Reading.run_frame (f := Frame.behind text classes []) rfl hstart _ hreached nofun
  have hreading : (StartRule.unit.reading other).frame (Frame.behind text classes [])
      (text.length + 1) (text.count '\n' + 1) =
        ⟨.unit classes, Position.start.shift (text.length + 1) (text.count '\n' + 1),
          Position.start.advance (text ++ ['\n']), other⟩ := by
    have hclasses : classes ++ [] = classes := List.append_nil classes
    rw [Position.advance_newline, Reading.frame, StartRule.reading, StartRule.point, Point.frame]
    exact congrArg (fun cs => Reading.mk (.unit cs) _ _ _) hclasses
  rw [StartRule.read, StartRule.read, ← hframe, hreading]
  exact hrun.trans (Reading.run_of_finish? rfl last _ _ other)

end ClassLang
