import ControlFile.Proofs.Item.Alone

/-!
# The body of an equation, written and read

A text `= s;` that is accepted and has one item, an equation, is read again from what is written of the body
of that equation (`Parsed.ofText_body`).  The uncertainty, if there is one, is left out.

In a text a minus may stand before a number with space between, and then it is an operation; written the two
touch, and it is read as part of the number.  `Expr.absorbSigns` takes every minus into the number behind
it.  Both bodies come to the same by it, calls being taken without their places.
-/

namespace ControlFile

open Lexer Lexeme

/-! ### Numbers that absorb their signs -/

/-- The number that a minus and a number are together. -/
def UnaryOp.absorbed? : UnaryOp → Expr → Option Literal
  | .minus, .literal value => if value.isNumber then some value.negated else none
  | _, _ => none

mutual

/-- The expression with each minus before a number taken into the number. -/
def Expr.absorbSigns : Expr → Expr
  | .literal value => .literal value
  | .ident name => .ident name
  | .call name arguments range => .call name (Argument.absorbSignsAll arguments) range
  | .unary op operand =>
    match op.absorbed? operand with
    | some value => .literal value
    | none => .unary op operand.absorbSigns
  | .binary op lhs rhs => .binary op lhs.absorbSigns rhs.absorbSigns
  | .paren inner => .paren inner.absorbSigns

def Argument.absorbSignsAll : List Argument → List Argument
  | [] => []
  | a :: as => a.absorbSigns :: Argument.absorbSignsAll as

def Argument.absorbSigns : Argument → Argument
  | .hole => .hole
  | .parameter param => .parameter param.absorbSigns
  | .expr expr => .expr expr.absorbSigns
  | .equation equation => .equation equation.absorbSigns

def Parameter.absorbSigns : Parameter → Parameter
  | ⟨refinement, name, value⟩ => ⟨refinement, name, value.absorbSigns⟩

def Value.absorbSigns : Value → Value
  | .absent => .absent
  | .literal value => .literal value
  | .equation equation => .equation equation.absorbSigns

def Equation.absorbSigns : Equation → Equation
  | ⟨op, body, uncertainty⟩ => ⟨op, body.absorbSigns, uncertainty⟩

end

/-! ### Places do not matter -/

theorem UnaryOp.absorbed?_bare (op : UnaryOp) (operand : Expr) :
    op.absorbed? operand.bare = op.absorbed? operand := by
  cases op <;> cases operand <;> rfl

mutual

theorem Expr.absorbSigns_bare : (e : Expr) → e.bare.absorbSigns = e.absorbSigns.bare
  | .literal _ => rfl
  | .ident _ => rfl
  | .call name arguments _ =>
    congrArg (Expr.call name · (.emptyAt 0)) (Argument.absorbSignsAll_bareAll arguments)
  | .unary op operand => by
    rw [Expr.bare, Expr.absorbSigns, Expr.absorbSigns, op.absorbed?_bare]
    cases op.absorbed? operand with
    | some value => rfl
    | none => exact congrArg (Expr.unary op) (Expr.absorbSigns_bare operand)
  | .binary op lhs rhs => congrArg₂ (Expr.binary op) (Expr.absorbSigns_bare lhs) (Expr.absorbSigns_bare rhs)
  | .paren inner => congrArg Expr.paren (Expr.absorbSigns_bare inner)

theorem Argument.absorbSignsAll_bareAll : (as : List Argument) →
    Argument.absorbSignsAll (Argument.bareAll as) = Argument.bareAll (Argument.absorbSignsAll as)
  | [] => rfl
  | a :: as => congrArg₂ List.cons (Argument.absorbSigns_bare a) (Argument.absorbSignsAll_bareAll as)

theorem Argument.absorbSigns_bare : (a : Argument) → a.bare.absorbSigns = a.absorbSigns.bare
  | .hole => rfl
  | .parameter param => congrArg Argument.parameter (Parameter.absorbSigns_bare param)
  | .expr expr => congrArg Argument.expr (Expr.absorbSigns_bare expr)
  | .equation equation => congrArg Argument.equation (Equation.absorbSigns_bare equation)

theorem Parameter.absorbSigns_bare : (p : Parameter) → p.bare.absorbSigns = p.absorbSigns.bare
  | ⟨refinement, name, value⟩ => congrArg (Parameter.mk refinement name) (Value.absorbSigns_bare value)

theorem Value.absorbSigns_bare : (x : Value) → x.bare.absorbSigns = x.absorbSigns.bare
  | .absent => rfl
  | .literal _ => rfl
  | .equation equation => congrArg Value.equation (Equation.absorbSigns_bare equation)

theorem Equation.absorbSigns_bare : (e : Equation) → e.bare.absorbSigns = e.absorbSigns.bare
  | ⟨op, body, uncertainty⟩ => congrArg (Equation.mk op · uncertainty) (Expr.absorbSigns_bare body)

end

/-! ### What the text takes into a number is taken there in any case -/

/-- What stands behind a sign in a grammatical expression holds together more tightly than a signed
number, and so taking signs into numbers makes it a number only if it has been one. -/
theorem UnaryOp.absorbed?_foldSigns (op : UnaryOp) {operand : Expr} (h : 5 ≤ operand.rank) (followed : Bool) :
    op.absorbed? (operand.foldSigns followed) = op.absorbed? operand := by
  cases operand with
  | unary => exact absurd h (by rw [Expr.rank]; decide)
  | _ => cases op <;> rfl

/-- A number without a minus that is read as one with it. -/
theorem UnaryOp.absorbed?_of_foldedLiteral? {op : UnaryOp} {operand : Expr} {followed : Bool} {value : Literal}
    (h : op.foldedLiteral? followed operand = some value) : op.absorbed? operand = some value := by
  unfold foldedLiteral? at h
  split at h
  · rename_i number
    obtain ⟨hunsigned, hvalue⟩ := Option.ite_none_right_eq_some.1 h
    have hnumber : number.isNumber = true := by
      simp only [Literal.isUnsigned, Bool.and_eq_true] at hunsigned
      exact hunsigned.2.1.1
    exact (if_pos hnumber).trans hvalue
  · cases h

theorem Parameter.IsMarked.absorbSigns_foldSigns {v : Vocabulary} {p : Parameter} (h : p.IsMarked v) :
    p.foldSigns.absorbSigns = p.absorbSigns := by
  obtain ⟨refinement, name, value⟩ := p
  cases value with
  | absent | literal => rfl
  | equation => exact h.2.2.elim

mutual

/-- Signs that are read as part of a number are absorbed whether they are or not. -/
theorem Expr.Grammatical.absorbSigns_foldSigns {v : Vocabulary} {juxtapose : Bool} : {e : Expr} →
    e.Grammatical v juxtapose → ∀ followed, (e.foldSigns followed).absorbSigns = e.absorbSigns
  | .literal _, _, _ => rfl
  | .ident _, _, _ => rfl
  | .call name _ range, h, _ => congrArg (Expr.call name · range) (Argument.absorbSignsAll_foldSignsAll h.2.2)
  | .unary op operand, h, followed => by
    rw [Expr.foldSigns, Expr.absorbSigns]
    cases hfolded : op.foldedLiteral? followed operand with
    | some value =>
      rw [UnaryOp.absorbed?_of_foldedLiteral? hfolded]
      rfl
    | none =>
      dsimp only
      rw [Expr.absorbSigns, op.absorbed?_foldSigns h.1, h.2.absorbSigns_foldSigns]
  | .binary op _ _, h, followed =>
    congrArg₂ (Expr.binary op) (h.2.1.absorbSigns_foldSigns _) (h.2.2.absorbSigns_foldSigns followed)
  | .paren inner, h, _ =>
    congrArg Expr.paren (Expr.Grammatical.absorbSigns_foldSigns (e := inner) h false)

theorem Argument.absorbSignsAll_foldSignsAll {v : Vocabulary} : {as : List Argument} →
    Argument.AllGrammatical v as →
      Argument.absorbSignsAll (Argument.foldSignsAll as) = Argument.absorbSignsAll as
  | [], _ => rfl
  | _ :: _, h => congrArg₂ List.cons h.1.absorbSigns_foldSigns (Argument.absorbSignsAll_foldSignsAll h.2)

theorem Argument.Grammatical.absorbSigns_foldSigns {v : Vocabulary} : {a : Argument} →
    a.Grammatical v → a.foldSigns.absorbSigns = a.absorbSigns
  | .hole, _ => rfl
  | .parameter _, h => congrArg Argument.parameter (Parameter.IsMarked.absorbSigns_foldSigns h)
  | .expr expr, h => congrArg Argument.expr (Expr.Grammatical.absorbSigns_foldSigns (e := expr) h false)
  | .equation equation, h =>
    congrArg Argument.equation (Equation.Grammatical.absorbSigns_foldSigns (e := equation) h)

theorem Equation.Grammatical.absorbSigns_foldSigns {v : Vocabulary} : {e : Equation} →
    e.Grammatical v → e.foldSigns.absorbSigns = e.absorbSigns
  | ⟨op, body, uncertainty⟩, h => congrArg (Equation.mk op · uncertainty)
      (Expr.Grammatical.absorbSigns_foldSigns (e := body) h.1 false)

end

/-! ### Equations that have been read -/

namespace ItemParser

variable {v : Vocabulary} {levels : Nat} {scope : Scope} {c c' : Cursor}

theorem exists_deeper (v : Vocabulary) (levels : Nat) (scope : Scope) :
    ∃ deeper, item v levels scope = located (itemKind v levels deeper scope) := by
  cases levels with
  | zero => exact ⟨none, rfl⟩
  | succ levels => exact ⟨some (item v levels), rfl⟩

/-- At an assignment operator an equation is read, and it is grammatical. -/
theorem grammatical_of_runs_item {op : AssignOp} (hc : c.Genuine)
    (hk : Lexeme.kind? c.lexemes = some (.assign op)) {o : Option Item} (h : Runs (item v levels scope) c o c') :
    ∃ e range, o = some ⟨.equation e, range⟩ ∧ e.Grammatical v ∧ e.nesting < levels := by
  obtain ⟨deeper, hitem⟩ := exists_deeper v levels scope
  rw [hitem, located, runs_cursor_bind] at h
  obtain ⟨k, c₁, hkind, hrest⟩ := h.of_bind fun k => retains_locate k _
  obtain ⟨t, ht, htoken⟩ := exists_token hk
  rw [Runs, itemKind_some ht, if_neg (by rw [htoken]; simp)] at hkind
  simp only [leaf, htoken] at hkind
  obtain ⟨e, c₂, hequation, hsome⟩ := Runs.of_bind hkind fun _ => .pure _
  cases hsome
  obtain ⟨hg, hn, -⟩ := Parser.ensures_equation (Parser.soundInner_expression v levels) hc hk e c₁
    (runs_lift.1 hequation)
  cases hrest
  exact ⟨e, _, rfl, hg, hn⟩

end ItemParser

namespace Parsed

variable {v : Vocabulary} {text s : String}

/-- The first token of the text of an equation is its assignment operator. -/
theorem kind?_start_equation (h : (ofText v ("= " ++ s ++ ";")).isOk = true) :
    Lexeme.kind? (start ("= " ++ s ++ ";")).lexemes = some (.assign .set) := by
  have htext : ("= " ++ s ++ ";").toList = AssignOp.set.symbol.toList ++ ' ' :: (s.toList ++ [';']) := by
    simp [AssignOp.symbol]
  have hassign := (lexesAs_assign .set).spells rfl (by simp) true (' ' :: (s.toList ++ [';'])) (closed_blank _)
  have hvisible : (start ("= " ++ s ++ ";")).lexemes = visible true ("= " ++ s ++ ";").toList :=
    Cursor.lexemes_tokens (TokenStream.valid (nil_of_isOk h).1)
  rw [hvisible, visible, htext, hassign]
  rfl

/-- An accepted text that starts with an assignment operator starts with a grammatical equation. -/
theorem exists_grammatical {op : AssignOp} (h : (ofText v text).isOk = true)
    (hk : Lexeme.kind? (start text).lexemes = some (.assign op)) : ∃ e range is,
      (ofText v text).items = ⟨.equation e, range⟩ :: is ∧ e.Grammatical v ∧ e.nesting < maxNesting := by
  obtain ⟨c', hall, -⟩ := runsAll_document h
  have hloop := ItemParser.loop_items ItemParser.telling_never
    (ItemParser.retains_item v maxNesting ⟨.topLevel, false⟩)
  have hnot : ¬ItemParser.Stopped (fun _ => false) (start text) := fun hstopped =>
    Bool.noConfusion (hstopped _ ((Cursor.kind?_eq _).trans hk))
  obtain ⟨limit, hlimit⟩ : ∃ limit, (start text).rest.length = limit + 1 := by
    obtain ⟨l, ls, _, hrow⟩ := Cursor.exists_of_kind? hk
    exact ⟨_, by rw [← Cursor.length_lexemes, hrow, List.length_cons]⟩
  change ItemParser.items _ _ (start text).rest.length _ = _ at hall
  rw [hlimit] at hall
  obtain ⟨o, c₁, hone⟩ := hloop.first hnot hall
  have hfrom := Cursor.fromText_start (TokenStream.valid (nil_of_isOk h).1) 0 (byteLength text.toList)
  obtain ⟨e, range, rfl, hg, hn⟩ := ItemParser.grammatical_of_runs_item hfrom.genuine hk hone
  obtain ⟨_, row, hi, hecho, -⟩ := ItemParser.echoes_item v maxNesting _ hfrom _ c₁ hone
  cases hi
  rw [hloop.step hnot hone hecho.passes] at hall
  exact ⟨e, range, _, (congrArg Prod.fst hall).symm, hg, hn⟩

/-- **The body of an equation is read again from what is written of it.**  Signs may have become part of
numbers, and the calls stand in other places. -/
theorem ofText_body {e : Equation} {range : Extent} (h : (ofText v ("= " ++ s ++ ";")).isOk = true)
    (hitems : (ofText v ("= " ++ s ++ ";")).items = [⟨.equation e, range⟩]) :
    (ofText v ("= " ++ e.body.render ++ ";")).isOk = true ∧
      ∃ f range', (ofText v ("= " ++ e.body.render ++ ";")).items = [⟨.equation f, range'⟩] ∧
        f.body.absorbSigns.bare = e.body.absorbSigns.bare := by
  obtain ⟨e', _, _, hfirst, hg, hn⟩ := exists_grammatical h (kind?_start_equation h)
  rw [hitems] at hfirst
  cases hfirst
  obtain ⟨op, body, uncertainty⟩ := e
  have hbody : body.Grammatical v true := hg.1
  obtain ⟨hok, ⟨op', body', uncertainty'⟩, range', hread, hbare⟩ :=
    ofText_equation (v := v) (e := ⟨.set, body, none⟩) ⟨hbody, by simp⟩ hn
  have hrender : (Equation.mk .set body none).render = "= " ++ body.render ++ ";" :=
    String.append_empty
  rw [hrender] at hok hread
  have hfolded : body'.bare = (body.foldSigns false).bare := congrArg Equation.body hbare
  refine ⟨hok, _, range', hread, ?_⟩
  calc body'.absorbSigns.bare = body'.bare.absorbSigns := body'.absorbSigns_bare.symm
    _ = (body.foldSigns false).bare.absorbSigns := by rw [hfolded]
    _ = (body.foldSigns false).absorbSigns.bare := Expr.absorbSigns_bare _
    _ = body.absorbSigns.bare := by rw [hbody.absorbSigns_foldSigns]

/-- The equation that is all there is. -/
def equationAlone? : List Item → Option Equation
  | [⟨.equation e, _⟩] => some e
  | _ => none

theorem eq_of_equationAlone? {is : List Item} {e : Equation} (h : equationAlone? is = some e) :
    ∃ range, is = [⟨.equation e, range⟩] := by
  unfold equationAlone? at h
  split at h
  · cases h
    exact ⟨_, rfl⟩
  · cases h

/-- Minuses of either kind, in a product, in the arguments of a call and behind a sign, and behind the
equation an uncertainty and a comment with the semicolon in it. -/
theorem ofText_body_minus :
    (ofText .standard ("= " ++ "- 2 f(- 1, @ p -3, = - x ^ - 2; : 4) - - 1; : 5 ' note" ++ ";")).isOk = true ∧
      ∃ e range, (ofText .standard
          ("= " ++ "- 2 f(- 1, @ p -3, = - x ^ - 2; : 4) - - 1; : 5 ' note" ++ ";")).items =
            [⟨.equation e, range⟩] ∧
        e.body.render = "-2 f(-1, @ p -3, = -x ^ -2; : 4) - -1" ∧
        (ofText .standard ("= " ++ e.body.render ++ ";")).isOk = true ∧
        ∃ f range', (ofText .standard ("= " ++ e.body.render ++ ";")).items = [⟨.equation f, range'⟩] ∧
          f.body.absorbSigns.bare = e.body.absorbSigns.bare := by
  have hread : let p := ofText .standard ("= " ++ "- 2 f(- 1, @ p -3, = - x ^ - 2; : 4) - - 1; : 5 ' note" ++ ";")
      (p.isOk, (equationAlone? p.items).map (·.body.render)) =
        (true, some "-2 f(-1, @ p -3, = -x ^ -2; : 4) - -1") := by
    decide +kernel
  obtain ⟨hok, hbody⟩ := Prod.mk.inj hread
  obtain ⟨e, halone, hrender⟩ := Option.map_eq_some_iff.1 hbody
  obtain ⟨range, hitems⟩ := eq_of_equationAlone? halone
  exact ⟨hok, e, range, hitems, hrender, ofText_body hok hitems⟩

end Parsed

end ControlFile
