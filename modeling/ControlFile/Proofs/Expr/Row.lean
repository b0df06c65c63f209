import ControlFile.Proofs.Expr.Grouping
import ControlFile.Proofs.Number.ReadBack

/-!
# Written expressions

`Expr.row` is the row of lexemes that the writing of an expression is cut into; `s` says whether
there is space before it.  `Expr.Legible.writes` proves it, for expressions whose names and literals
can be written (`Expr.Legible`): each token of the writing is followed by a blank, a parenthesis, a
comma or a semicolon, or else is a sign or a mark itself, so no two of them run together.  How the
operations are grouped does not matter; grammatical expressions are legible.
-/

namespace ControlFile

open Lexer

/-- A token of one character. -/
def Lexeme.ofChar (c : Char) (s : Bool) : Lexeme := ⟨single c, String.ofList [c], s⟩

/-! ### Tokens -/

/-- The token of a literal without its minus. -/
def Literal.magnitude : Literal → TokenKind × String
  | .integer n => (.integer, toString n.natAbs)
  | .decimal x =>
    (.decimal, String.ofList (((Binary.ofFloat? x).map Shortest.magnitudeText).getD []))
  | .string text => (.string, "\"" ++ text ++ "\"")

/-- A minus, if it is asked for, and a token that touches it. -/
def Lexeme.withMinus (negative s : Bool) (t : TokenKind × String) : List Lexeme :=
  if negative then [.ofChar '-' s, ⟨t.1, t.2, false⟩] else [⟨t.1, t.2, s⟩]

def Literal.row (s : Bool) (value : Literal) : List Lexeme :=
  Lexeme.withMinus value.isNegative s value.magnitude

def UnaryOp.lexeme (s : Bool) : UnaryOp → Lexeme
  | .plus => .ofChar '+' s
  | .minus => .ofChar '-' s

def BinaryOp.row : BinaryOp → List Lexeme
  | .juxtaposed => []
  | op => [⟨.operator op, op.symbol, true⟩]

/-- The token of a name, or of the mark that stands for one. -/
def nameLexeme (s : Bool) (name : String) : Lexeme :=
  ⟨if name = uniqueMark then .directive .unique else .ident, name, s⟩

def Refinement.row (s : Bool) : Refinement → List Lexeme
  | .plain => []
  | .refined => [.ofChar '@' s]
  | .unrefined => [.ofChar '!' s]

def Uncertainty.row (s : Bool) : Uncertainty → List Lexeme
  | .literal value => value.row s
  | .name n => [⟨.ident, n, s⟩]

/-- An error estimate with the colon before it. -/
def Uncertainty.rowBehind (u : Uncertainty) : List Lexeme := .ofChar ':' true :: u.row true

/-! ### Rows -/

mutual

def Expr.row (s : Bool) : Expr → List Lexeme
  | .literal value => value.row s
  | .ident name => [nameLexeme s name]
  | .call name arguments _ =>
    ⟨.ident, name, s⟩ :: .ofChar '(' false :: (Argument.rowFirst arguments ++ [.ofChar ')' false])
  | .unary op operand => op.lexeme s :: operand.row false
  | .binary op lhs rhs => lhs.row s ++ op.row ++ rhs.row true
  | .paren inner => .ofChar '(' s :: (inner.row false ++ [.ofChar ')' false])

def Argument.row (s : Bool) : Argument → List Lexeme
  | .hole => []
  | .parameter param => param.row s
  | .expr expr => expr.row s
  | .equation equation => equation.row s

def Argument.rowFirst : List Argument → List Lexeme
  | [] => []
  | a :: as => a.row false ++ Argument.rowRest as

def Argument.rowRest : List Argument → List Lexeme
  | [] => []
  | a :: as => .ofChar ',' false :: (a.row true ++ Argument.rowRest as)

def Parameter.row (s : Bool) : Parameter → List Lexeme
  | ⟨refinement, name, value⟩ =>
    let marked := refinement != .plain
    refinement.row s ++ (name.map (nameLexeme (s || marked))).toList
      ++ value.row (s || marked || name.isSome)

def Value.row (s : Bool) : Value → List Lexeme
  | .absent => []
  | .literal value => value.row s
  | .equation equation => equation.row s

def Equation.row (s : Bool) : Equation → List Lexeme
  | ⟨op, body, uncertainty⟩ =>
    ⟨.assign op, op.symbol, s⟩ :: (body.row true ++ .ofChar ';' false ::
      (uncertainty.map Uncertainty.rowBehind).getD [])

end

/-! ### Pieces that may follow a sign -/

/-- The text is cut into the given lexemes, and it may follow a sign. -/
structure Writes (text : String) (row : Bool → List Lexeme) : Prop where
  spells : Spells text.toList row
  starts : ∃ c, text.toList.head? = some c ∧ c ≠ '='

theorem LexesAs.head_ne_equals {kind : TokenKind} {text : String} (h : LexesAs kind text)
    (ha : kind.isAssign = false) (ho : kind ≠ .operator .eq) :
    ∃ c, text.toList.head? = some c ∧ c ≠ '=' := by
  obtain ⟨c, cs, htext, hfirst⟩ := h
  refine ⟨c, by rw [htext]; rfl, ?_⟩
  rintro rfl
  have hp : first '=' cs = punctuation '=' cs := rfl
  rw [hp, punctuation] at hfirst
  simp only [withEquals] at hfirst
  split at hfirst
  · exact ho (congrArg Prod.fst hfirst).symm
  · have hkind : TokenKind.assign .set = kind := congrArg Prod.fst hfirst
    rw [← hkind] at ha
    exact Bool.noConfusion ha

theorem LexesAs.writes {kind : TokenKind} {text : String} (h : LexesAs kind text)
    (hk : kind.isTrivia = false) (hi : kind ≠ .invalid) (ha : kind.isAssign = false)
    (ho : kind ≠ .operator .eq) : Writes text fun s => [⟨kind, text, s⟩] :=
  ⟨h.spells hk hi, h.head_ne_equals ha ho⟩

theorem Writes.afterSign {text : String} {row : Bool → List Lexeme} (h : Writes text row) {c : Char}
    (hc : c = '+' ∨ c = '-') :
    Writes (String.ofList [c] ++ text) fun s => .ofChar c s :: row false := by
  obtain ⟨d, hd, hne⟩ := h.starts
  have htext : (String.ofList [c] ++ text).toList = c :: text.toList := by simp
  refine ⟨?_, c, by rw [htext]; rfl, ?_⟩
  · rw [htext]
    exact h.spells.afterSign hc hd hne
  · rcases hc with rfl | rfl <;> decide

/-- A piece with closed text behind it. -/
theorem Writes.append {text more : String} {row rowMore : Bool → List Lexeme} (h : Writes text row)
    (hm : Spells more.toList rowMore) (hc : Closed more.toList) (hne : more.toList ≠ []) :
    Writes (text ++ more) fun s => row s ++ rowMore false := by
  refine ⟨?_, ?_⟩
  · rw [String.toList_append]
    exact h.spells.append hm hc hne
  · obtain ⟨c, hhead, hcne⟩ := h.starts
    refine ⟨c, ?_, hcne⟩
    rw [String.toList_append, List.head?_append, hhead]
    rfl

theorem Writes.spaced {text more : String} {row rowMore : Bool → List Lexeme} (h : Writes text row)
    (hm : Spells more.toList rowMore) : Writes (text ++ " " ++ more) fun s => row s ++ rowMore true := by
  have hblank : Spells (" " ++ more).toList fun _ => rowMore true := by
    rw [String.toList_append]
    exact hm.afterBlank (by decide)
  rw [String.append_assoc]
  exact h.append hblank (by rw [String.toList_append]; exact closed_blank _) (by simp)

/-! ### Literals -/

theorem lexesAs_string {text : String} (hq : '\x22' ∉ text.toList) (hn : '\n' ∉ text.toList) :
    LexesAs .string ("\"" ++ text ++ "\"") := by
  refine ⟨'\x22', text.toList ++ ['\x22'], by simp, ?_⟩
  have hcount : countWhile (fun c => c != '\x22' && c != '\n') (text.toList ++ ['\x22'])
      = text.toList.length := by
    refine countWhile_of_all ?_ (by simp)
    intro c hc
    have h1 : c ≠ '\x22' := fun h => hq (h ▸ hc)
    have h2 : c ≠ '\n' := fun h => hn (h ▸ hc)
    simp [h1, h2]
  have hs : first '\x22' (text.toList ++ ['\x22']) = string (text.toList ++ ['\x22']) := rfl
  rw [hs, string, hcount, List.drop_left]
  simp

namespace Literal

/-- The token of a literal is one. -/
theorem lexesAs_magnitude {value : Literal} (h : value.Legible) :
    LexesAs value.magnitude.1 value.magnitude.2 := by
  cases value with
  | integer n => exact lexesAs_integer n.natAbs
  | decimal x =>
    obtain ⟨b, hb⟩ := Binary.exists_ofFloat? h
    simp only [magnitude, hb, Option.map_some, Option.getD_some]
    exact Shortest.lexesAs_magnitudeText hb
  | string text => exact lexesAs_string h.1 h.2

theorem render_eq {value : Literal} (h : value.Legible) :
    value.render = (if value.isNegative then "-" else "") ++ value.magnitude.2 := by
  cases value with
  | integer n =>
    cases n with
    | ofNat n =>
      have : ¬Int.ofNat n < 0 := Int.not_lt.2 (Int.natCast_nonneg n)
      simp only [render, isNegative, magnitude, this, decide_false]
      rfl
    | negSucc n =>
      have : (Int.negSucc n) < 0 := Int.negSucc_lt_zero n
      simp only [render, isNegative, magnitude, this, decide_true, if_true]
      rfl
  | decimal x =>
    obtain ⟨b, hb⟩ := Binary.exists_ofFloat? h
    simp only [render, floatText, hb, isNegative, magnitude, Option.map_some, Option.getD_some]
    cases b.negative <;> simp
  | string text => simp [render, isNegative, magnitude]

theorem kind_magnitude (value : Literal) : value.magnitude.1.isLiteral = true := by
  cases value <;> rfl

theorem writes {value : Literal} (h : value.Legible) : Writes value.render value.row := by
  have hw : Writes value.magnitude.2 fun s => [⟨value.magnitude.1, value.magnitude.2, s⟩] := by
    refine (lexesAs_magnitude h).writes ?_ ?_ ?_ ?_ <;> cases value <;> simp [magnitude] <;> rfl
  rw [render_eq h]
  unfold row Lexeme.withMinus
  cases value.isNegative with
  | false => simpa using hw
  | true => simpa using hw.afterSign (Or.inr rfl)

end Literal

/-! ### Names, marks and operators -/

theorem lexesAs_uniqueMark : LexesAs (.directive .unique) uniqueMark := ⟨'#', _, rfl, rfl⟩

theorem IsName.writes {name : String} (h : IsName name) : Writes name fun s => [⟨.ident, name, s⟩] :=
  LexesAs.writes h rfl (by simp) rfl (by simp)

/-- The mark for a unique name is no name. -/
theorem IsName.ne_uniqueMark {name : String} (h : IsName name) : name ≠ uniqueMark := by
  rintro rfl
  obtain ⟨c, cs, htext, hfirst⟩ := h
  obtain ⟨d, ds, htext', hfirst'⟩ := lexesAs_uniqueMark
  rw [htext] at htext'
  cases htext'
  rw [hfirst] at hfirst'
  cases hfirst'

theorem IsName.nameLexeme_eq {name : String} (h : IsName name) (s : Bool) :
    nameLexeme s name = ⟨.ident, name, s⟩ := by
  rw [nameLexeme, if_neg h.ne_uniqueMark]

theorem IsNameOrMark.writes {name : String} (h : IsNameOrMark name) :
    Writes name fun s => [nameLexeme s name] := by
  rcases h with rfl | h
  · exact lexesAs_uniqueMark.writes rfl (by simp) rfl (by simp)
  · simpa only [h.nameLexeme_eq] using h.writes

theorem IsParameterName.isNameOrMark {v : Vocabulary} {n : String}
    (h : IsParameterName v (some n)) : IsNameOrMark n := h.imp id And.left

theorem lexesAs_operator {op : BinaryOp} (h : op ≠ .juxtaposed) :
    LexesAs (.operator op) op.symbol := by
  cases op with
  | juxtaposed => exact absurd rfl h
  | _ => exact ⟨_, _, rfl, rfl⟩

theorem lexesAs_assign (op : AssignOp) : LexesAs (.assign op) op.symbol := by
  cases op <;> exact ⟨_, _, rfl, rfl⟩

theorem Uncertainty.spells {u : Uncertainty} (h : u.Legible) : Spells u.render.toList u.row := by
  cases u with
  | literal value => exact (Literal.writes h.1).spells
  | name n => exact (IsName.writes h).spells

theorem Refinement.writes {r : Refinement} (h : r ≠ .plain) : Writes r.symbol r.row := by
  cases r with
  | plain => exact absurd rfl h
  | refined => exact ⟨spells_mark (c := '@') rfl, '@', rfl, by decide⟩
  | unrefined => exact ⟨spells_mark (c := '!') rfl, '!', rfl, by decide⟩

/-! ### Places for values -/

/-- A value behind a name or a mark. -/
theorem Value.spells_behind {value : Value} {text : String} {row : Bool → List Lexeme}
    (h : Writes text row) (hv : value = .absent ∨ Spells value.render.toList value.row) :
    Writes (text ++ value.separator true ++ value.render) fun s => row s ++ value.row true := by
  cases value with
  | absent => simpa [Value.separator, Value.render, Value.row] using h
  | literal value => exact h.spaced (hv.resolve_left (by simp))
  | equation e => exact h.spaced (hv.resolve_left (by simp))

/-- A mark, a name and a value, of which one is there. -/
theorem Parameter.spells_of {p : Parameter} (hname : ∀ n, p.name = some n → IsNameOrMark n)
    (hvalue : p.value = .absent ∨ Spells p.value.render.toList p.value.row)
    (hne : p.refinement ≠ .plain ∨ p.name.isSome = true ∨ p.value ≠ .absent) :
    Spells p.render.toList p.row := by
  obtain ⟨refinement, name, value⟩ := p
  by_cases hr : refinement = .plain
  · subst hr
    cases name with
    | none =>
      have hv := hvalue.resolve_left (by simpa using hne)
      cases value with
      | absent => simp at hne
      | _ => simpa [Parameter.render, Parameter.row, Refinement.symbol, Refinement.row,
          Value.separator] using hv
    | some n =>
      have := (Value.spells_behind (hname n rfl).writes hvalue).spells
      simpa [Parameter.render, Parameter.row, Refinement.symbol, Refinement.row] using this
  · have hmark := Refinement.writes hr
    have hb : (refinement != .plain) = true := by simpa using hr
    cases name with
    | none =>
      have := (Value.spells_behind hmark hvalue).spells
      simpa [Parameter.render, Parameter.row, hb] using this
    | some n =>
      have := (Value.spells_behind (hmark.spaced (hname n rfl).writes.spells) hvalue).spells
      simpa [Parameter.render, Parameter.row, hb] using this

theorem Value.IsPlain.spells {value : Value} (h : value.IsPlain) :
    value = .absent ∨ Spells value.render.toList value.row := by
  cases value with
  | absent => exact Or.inl rfl
  | literal value => exact Or.inr (Literal.writes h).spells
  | equation e => exact h.elim

/-! ### What can be written -/

/-- A marked place that can be written. -/
structure Parameter.Legible (p : Parameter) : Prop where
  marked : p.refinement ≠ .plain
  name : ∀ n, p.name = some n → IsNameOrMark n
  value : p.value.IsPlain

theorem Parameter.Legible.spells {p : Parameter} (h : p.Legible) : Spells p.render.toList p.row :=
  Parameter.spells_of h.name h.value.spells (Or.inl h.marked)

theorem Parameter.IsMarked.legible {v : Vocabulary} {p : Parameter} (h : p.IsMarked v) : p.Legible := by
  refine ⟨h.1, ?_, h.2.2⟩
  intro n hn
  have hname := h.2.1
  rw [hn] at hname
  exact hname.isNameOrMark

theorem Parameter.IsMarked.spells {v : Vocabulary} {p : Parameter} (h : p.IsMarked v) :
    Spells p.render.toList p.row := h.legible.spells

mutual

/-- Every name, literal and mark in the expression can be written. -/
def Expr.Legible : Expr → Prop
  | .literal value => value.Legible
  | .ident name => IsNameOrMark name
  | .call name arguments _ => IsName name ∧ Argument.AllLegible arguments
  | .unary _ operand => operand.Legible
  | .binary _ lhs rhs => lhs.Legible ∧ rhs.Legible
  | .paren inner => inner.Legible

def Argument.AllLegible : List Argument → Prop
  | [] => True
  | a :: as => a.Legible ∧ Argument.AllLegible as

def Argument.Legible : Argument → Prop
  | .hole => True
  | .parameter param => param.Legible
  | .expr expr => expr.Legible
  | .equation equation => equation.Legible

def Equation.Legible : Equation → Prop
  | ⟨_, body, uncertainty⟩ => body.Legible ∧ ∀ u, uncertainty = some u → u.Legible

end

mutual

theorem Expr.Grammatical.legible {v : Vocabulary} : {e : Expr} → {j : Bool} → e.Grammatical v j → e.Legible
  | .literal _, _, h | .ident _, _, h => h
  | .call _ _ _, _, h => ⟨h.1, Argument.allLegible h.2.2⟩
  | .unary _ operand, _, h => Expr.Grammatical.legible (e := operand) h.2
  | .binary _ lhs rhs, _, h =>
    ⟨Expr.Grammatical.legible (e := lhs) h.2.1, Expr.Grammatical.legible (e := rhs) h.2.2⟩
  | .paren inner, _, h => Expr.Grammatical.legible (e := inner) h

theorem Argument.allLegible {v : Vocabulary} : {as : List Argument} → Argument.AllGrammatical v as →
    Argument.AllLegible as
  | [], _ => trivial
  | _ :: _, h => ⟨Argument.Grammatical.legible h.1, Argument.allLegible h.2⟩

theorem Argument.Grammatical.legible {v : Vocabulary} : {a : Argument} → a.Grammatical v → a.Legible
  | .hole, _ => trivial
  | .parameter _, h => Parameter.IsMarked.legible h
  | .expr expr, h => Expr.Grammatical.legible (e := expr) h
  | .equation equation, h => Equation.Grammatical.legible (e := equation) h

theorem Equation.Grammatical.legible {v : Vocabulary} : {e : Equation} → e.Grammatical v → e.Legible
  | ⟨_, body, _⟩, h => ⟨Expr.Grammatical.legible (e := body) h.1, h.2⟩

end

/-! ### Expressions -/

/-- The text, directly behind a mark, is cut into the given lexemes, if closed text follows. -/
def Touches (cs : List Char) (ls : List Lexeme) : Prop :=
  ∀ b, Closed b → lexemes false (cs ++ b) = ls ++ lexemes false b

theorem Spells.touches {cs : List Char} {row : Bool → List Lexeme} (h : Spells cs row) :
    Touches cs (row false) := fun b hb => h false b hb

theorem touches_nil : Touches [] [] := fun _ _ => rfl

theorem Touches.append {as bs : List Char} {ls ms : List Lexeme} (ha : Touches as ls)
    (hb : Touches bs ms) (hc : Closed bs) : Touches (as ++ bs) (ls ++ ms) := by
  intro b hclosed
  have hbs : Closed (bs ++ b) := by
    cases bs with
    | nil => exact hclosed
    | cons c cs => exact hc.append (by simp) b
  rw [List.append_assoc, ha _ hbs, hb b hclosed, List.append_assoc]

theorem Touches.afterMark {cs : List Char} {ls : List Lexeme} (h : Touches cs ls) {c : Char}
    (hc : isMark c = true) : Spells (c :: cs) fun s => .ofChar c s :: ls := by
  intro spaced b hb
  rw [List.cons_append, lexemes_mark hc, h b hb]
  rfl

theorem Argument.eq_hole {a : Argument} (h : a.isHole = true) : a = .hole := by
  cases a with
  | hole => rfl
  | _ => exact Bool.noConfusion h

theorem closed_renderRest (as : List Argument) : Closed (Argument.renderRest as).toList := by
  cases as with
  | nil => exact closed_nil
  | cons a as =>
    rw [Argument.renderRest, Argument.separator]
    cases a.isHole with
    | false =>
      simp only [Bool.false_eq_true, if_false, String.toList_append, List.append_assoc]
      exact closed_cons _ rfl
    | true =>
      simp only [if_true, String.toList_append, List.append_assoc]
      exact closed_cons _ rfl

/-- Something, and a closing parenthesis. -/
theorem Touches.closed {cs : List Char} {ls : List Lexeme} (h : Touches cs ls) :
    Touches (cs ++ [')']) (ls ++ [.ofChar ')' false]) :=
  h.append (spells_mark (c := ')') rfl).touches (closed_cons _ rfl)

mutual

/-- **The writing of an expression is cut into its row.** -/
theorem Expr.Legible.writes : {e : Expr} → e.Legible → Writes e.render fun s => e.row s
  | .literal value, h => Literal.writes h
  | .ident name, h => IsNameOrMark.writes h
  | .call name arguments range, h => by
    have hrow := (Argument.touches_first arguments h.2).closed.afterMark (c := '(') rfl
    have htext : ("(" ++ Argument.renderFirst arguments ++ ")").toList =
        '(' :: ((Argument.renderFirst arguments).toList ++ [')']) := by simp
    rw [← htext] at hrow
    have := (IsName.writes h.1).append hrow (htext ▸ closed_cons _ rfl) (by simp)
    simpa [Expr.render, Expr.row, String.append_assoc] using this
  | .unary op operand, h => by
    have hw := Expr.Legible.writes (e := operand) h
    cases op with
    | plus => exact hw.afterSign (Or.inl rfl)
    | minus => exact hw.afterSign (Or.inr rfl)
  | .binary op lhs rhs, h => by
    have hl := Expr.Legible.writes (e := lhs) h.1
    have hr := Expr.Legible.writes (e := rhs) h.2
    by_cases hop : op = .juxtaposed
    · subst hop
      simpa [Expr.render, Expr.row, BinaryOp.spaced, BinaryOp.row] using hl.spaced hr.spells
    · have hspaced : op.spaced = " " ++ op.symbol ++ " " := by
        cases op <;> first | rfl | exact absurd rfl hop
      have hsym : op.row = [⟨.operator op, op.symbol, true⟩] := by
        cases op <;> first | rfl | exact absurd rfl hop
      have ho := (lexesAs_operator hop).spells rfl (by simp)
      have := (hl.spaced ho).spaced hr.spells
      simpa [Expr.render, Expr.row, hspaced, hsym, String.append_assoc] using this
  | .paren inner, h => by
    have hrow := (Expr.Legible.writes (e := inner) h).spells.touches.closed.afterMark (c := '(') rfl
    refine ⟨?_, '(', by simp [Expr.render], by decide⟩
    simpa [Expr.render, Expr.row] using hrow

theorem Argument.Legible.spells : {a : Argument} → a.Legible → a.isHole = false →
    Spells a.render.toList fun s => a.row s
  | .hole, _, h => Bool.noConfusion h
  | .parameter _, h, _ => Parameter.Legible.spells h
  | .expr expr, h, _ => (Expr.Legible.writes (e := expr) h).spells
  | .equation equation, h, _ => Equation.Legible.spells (e := equation) h

theorem Argument.touches_first : (as : List Argument) → Argument.AllLegible as →
    Touches (Argument.renderFirst as).toList (Argument.rowFirst as)
  | [], _ => touches_nil
  | a :: as, h => by
    have hrest := Argument.touches_rest as h.2
    rw [Argument.renderFirst, Argument.rowFirst, String.toList_append]
    cases ha : a.isHole with
    | false => exact (Argument.Legible.spells (a := a) h.1 ha).touches.append hrest (closed_renderRest as)
    | true =>
      rw [Argument.eq_hole ha]
      exact touches_nil.append hrest (closed_renderRest as)

theorem Argument.touches_rest : (as : List Argument) → Argument.AllLegible as →
    Touches (Argument.renderRest as).toList (Argument.rowRest as)
  | [], _ => touches_nil
  | a :: as, h => by
    have hrest := Argument.touches_rest as h.2
    rw [Argument.renderRest, Argument.rowRest, Argument.separator]
    cases ha : a.isHole with
    | false =>
      have hblank := ((Argument.Legible.spells (a := a) h.1 ha).afterBlank (c := ' ') rfl).touches
      have := ((hblank.append hrest (closed_renderRest as)).afterMark (c := ',') rfl).touches
      simpa using this
    | true =>
      rw [Argument.eq_hole ha]
      simpa [Argument.render, Argument.row] using (hrest.afterMark (c := ',') rfl).touches

theorem Equation.Legible.spells : {e : Equation} → e.Legible → Spells e.render.toList fun s => e.row s
  | ⟨op, body, uncertainty⟩, h => by
    have hbody := ((lexesAs_assign op).spells rfl (by simp)).spaced (Expr.Legible.writes (e := body) h.1).spells
    cases uncertainty with
    | none =>
      have := hbody.append (spells_mark (c := ';') rfl) (closed_cons _ rfl) (by simp)
      simpa [Equation.render, Equation.row, Lexeme.ofChar] using this
    | some u =>
      have hcolon := (spells_mark (c := ':') rfl).spaced (Uncertainty.spells (h.2 u rfl))
      have hend := ((spells_mark (c := ';') rfl).spaced hcolon)
      have := hbody.append hend (closed_cons _ rfl) (by simp)
      simpa [Equation.render, Equation.row, Lexeme.ofChar, Uncertainty.rowBehind] using this

end

theorem Expr.writes {v : Vocabulary} {j : Bool} (e : Expr) (h : e.Grammatical v j) :
    Writes e.render fun s => e.row s := h.legible.writes

theorem Equation.spells {v : Vocabulary} (e : Equation) (h : e.Grammatical v) :
    Spells e.render.toList fun s => e.row s := h.legible.spells

/-! ### The first token of an expression -/

/-- The token is an operator. -/
def TokenKind.IsOperator (kind : TokenKind) : Prop := ∃ op, kind = .operator op

/-- An expression starts with a token that it says itself.  From rank 5 on it is no sign. -/
theorem Expr.row_eq_cons {v : Vocabulary} : (e : Expr) → {j : Bool} → e.Grammatical v j →
    (s : Bool) →
    ∃ kind text ls, e.row s = ⟨kind, text, s⟩ :: ls ∧ kind.startsExpression = true ∧
      (5 ≤ e.rank → ¬kind.IsOperator ∧ kind.startsOperand = e.startsFactor)
  | .literal value, j, h, s => by
    unfold Expr.row Literal.row Lexeme.withMinus
    cases hneg : value.isNegative with
    | true => exact ⟨_, _, _, rfl, rfl, fun h => by simp [Expr.rank, hneg] at h⟩
    | false =>
      refine ⟨_, _, _, rfl, by cases value <;> rfl, fun _ => ⟨?_, by cases value <;> rfl⟩⟩
      rintro ⟨op, hop⟩
      cases value <;> cases hop
  | .ident name, j, h, s => by
    refine ⟨_, _, _, rfl, ?_, fun _ => ⟨?_, ?_⟩⟩
    · split <;> rfl
    · rintro ⟨op, hop⟩
      split at hop <;> cases hop
    · split <;> rfl
  | .call name arguments range, j, h, s =>
    ⟨_, _, _, rfl, rfl, fun _ => ⟨by rintro ⟨_, ⟨⟩⟩, rfl⟩⟩
  | .unary op operand, j, h, s => by
    cases op <;> exact ⟨_, _, _, rfl, rfl, fun h => by simp [Expr.rank] at h⟩
  | .binary op lhs rhs, j, h, s => by
    obtain ⟨kind, text, ls, hrow, hstart, hrank⟩ := Expr.row_eq_cons lhs h.2.1 s
    refine ⟨kind, text, ls ++ op.row ++ rhs.row true, ?_, hstart, fun h5 => ?_⟩
    · rw [Expr.row, hrow]
      simp
    · have hop : op = .pow := by cases op <;> simp_all [Expr.rank, BinaryOp.level]
      subst hop
      exact hrank h.1.1
  | .paren inner, j, h, s => ⟨_, _, _, rfl, rfl, fun _ => ⟨by rintro ⟨_, ⟨⟩⟩, rfl⟩⟩

end ControlFile
