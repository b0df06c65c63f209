import ControlFile.Expr.Parser
import ControlFile.Proofs.Expr.Lookahead
import ControlFile.Proofs.Token.Consumption

/-!
# The symbols of an expression

From left to right an expression is a row of symbols: its values, its names, and tokens of which
nothing matters but the kind (`Expr.symbols`).  Products without a sign have no symbol of their own.

`Symbol.Written` says which tokens stand for a symbol.  That is one token for each, but a minus that
touches a number is part of the number.  Whether a name is the name of a call is to be seen from the
token behind it.

`Cursor.Shows c ss c'` says that the tokens between two cursors are the symbols `ss`, one after the
other, with nothing between them.
-/

namespace ControlFile

/-! ### Symbols -/

/-- A part of an expression that is written somewhere.  The name of a call says where the call starts,
and the parenthesis behind the arguments where it ends. -/
inductive Symbol
  | literal (value : Literal)
  | name (text : String)
  | callee (text : String) (start : Nat)
  | closing (stop : Nat)
  | fixed (kind : TokenKind)

def UnaryOp.token : UnaryOp → Symbol
  | .plus => .fixed (.operator .add)
  | .minus => .fixed (.operator .sub)

def BinaryOp.symbols : BinaryOp → List Symbol
  | .juxtaposed => []
  | op => [.fixed (.operator op)]

def Refinement.symbols : Refinement → List Symbol
  | .plain => []
  | .refined => [.fixed (.mark .atSign)]
  | .unrefined => [.fixed (.mark .bang)]

def Uncertainty.symbols : Uncertainty → List Symbol
  | .literal value => [.literal value]
  | .name text => [.name text]

/-- The end of an equation. -/
def Uncertainty.symbolsBehind : Option Uncertainty → List Symbol
  | some u => .fixed (.mark .colon) :: u.symbols
  | none => []

mutual

/-- The symbols of an expression from left to right. -/
def Expr.symbols : Expr → List Symbol
  | .literal value => [.literal value]
  | .ident name => [.name name]
  | .call name arguments range =>
    .callee name range.start :: .fixed (.mark .openParen) ::
      (Argument.symbolsAll arguments ++ [.closing range.stop])
  | .unary op operand => op.token :: operand.symbols
  | .binary op lhs rhs => lhs.symbols ++ op.symbols ++ rhs.symbols
  | .paren inner => .fixed (.mark .openParen) :: (inner.symbols ++ [.fixed (.mark .closeParen)])

/-- The arguments have commas between them. -/
def Argument.symbolsAll : List Argument → List Symbol
  | [] => []
  | [a] => a.symbols
  | a :: as => a.symbols ++ .fixed (.mark .comma) :: Argument.symbolsAll as

def Argument.symbols : Argument → List Symbol
  | .hole => []
  | .parameter param => param.symbols
  | .expr expr => expr.symbols
  | .equation equation => equation.symbols

def Parameter.symbols : Parameter → List Symbol
  | ⟨refinement, name, value⟩ =>
    refinement.symbols ++ (name.map Symbol.name).toList ++ value.symbols

def Value.symbols : Value → List Symbol
  | .absent => []
  | .literal value => [.literal value]
  | .equation equation => equation.symbols

def Equation.symbols : Equation → List Symbol
  | ⟨op, body, uncertainty⟩ =>
    .fixed (.assign op) ::
      (body.symbols ++ .fixed (.mark .semicolon) :: Uncertainty.symbolsBehind uncertainty)

end

theorem Argument.symbolsAll_cons {a : Argument} {as : List Argument} (h : as ≠ []) :
    symbolsAll (a :: as) = a.symbols ++ .fixed (.mark .comma) :: symbolsAll as := by
  rw [symbolsAll]
  exact h

/-! ### Tokens for symbols -/

/-- At a parenthesis that touches what is before it, and so makes a call of a name. -/
def Token.opensCall : List Token → Bool
  | t :: _ => t.kind == .mark .openParen && !t.spaced
  | [] => false

/-- The tokens stand for the symbol, where `behind` are the tokens behind them. -/
inductive Symbol.Written : Symbol → List Token → (behind : List Token) → Prop
  | literal {t : Token} {value : Literal} {behind : List Token}
      (h : t.literal false = .ok value) : Written (.literal value) [t] behind
  /-- A minus that touches a number. -/
  | negative {minus t : Token} {value : Literal} {behind : List Token}
      (hminus : minus.kind = .operator .sub) (hnumber : t.kind.isNumber = true)
      (htouches : t.spaced = false) (h : t.literal true = .ok value) :
      Written (.literal value) [minus, t] behind
  | name {t : Token} {behind : List Token} (hkind : t.kind = .ident)
      (hloose : Token.opensCall behind = false) : Written (.name t.text) [t] behind
  | callee {t : Token} {behind : List Token} (hkind : t.kind = .ident)
      (hcall : Token.opensCall behind = true) :
      Written (.callee t.text t.range.start) [t] behind
  | closing {t : Token} {behind : List Token} (hkind : t.kind = .mark .closeParen) :
      Written (.closing t.range.stop) [t] behind
  /-- The mark for a unique name. -/
  | unique {t : Token} {text : String} {behind : List Token} (hkind : t.kind = .directive .unique)
      (htext : text = uniqueMark ∨ text = t.text) : Written (.name text) [t] behind
  | fixed {t : Token} {kind : TokenKind} {behind : List Token} (hkind : t.kind = kind) :
      Written (.fixed kind) [t] behind

/-- The tokens stand for the symbols, one after the other, where `behind` are the tokens behind them. -/
inductive Symbol.AllWritten : List Symbol → List Token → (behind : List Token) → Prop
  | nil {behind : List Token} : AllWritten [] [] behind
  | cons {s : Symbol} {ss : List Symbol} {ts us behind : List Token}
      (hfirst : s.Written ts (us ++ behind)) (hrest : AllWritten ss us behind) :
      AllWritten (s :: ss) (ts ++ us) behind

namespace Symbol.AllWritten

variable {s : Symbol} {ss rr : List Symbol} {ts us behind : List Token}

theorem single (h : s.Written ts behind) : AllWritten [s] ts behind := by
  have hcons : AllWritten [s] (ts ++ []) behind := cons h nil
  rwa [List.append_nil] at hcons

theorem append (h : AllWritten ss ts (us ++ behind)) (h' : AllWritten rr us behind) :
    AllWritten (ss ++ rr) (ts ++ us) behind := by
  generalize hall : us ++ behind = all at h
  induction h with
  | nil => exact h'
  | @cons s ss ts vs _ hfirst hrest ih =>
    subst hall
    rw [List.cons_append, List.append_assoc]
    exact .cons (by rwa [List.append_assoc]) (ih rfl)

theorem exists_of_cons (h : AllWritten (s :: ss) ts behind) :
    ∃ us vs, ts = us ++ vs ∧ s.Written us (vs ++ behind) ∧ AllWritten ss vs behind := by
  cases h with
  | cons hfirst hrest => exact ⟨_, _, rfl, hfirst, hrest⟩

theorem exists_of_append (h : AllWritten (ss ++ rr) ts behind) :
    ∃ us vs, ts = us ++ vs ∧ AllWritten ss us (vs ++ behind) ∧ AllWritten rr vs behind := by
  induction ss generalizing ts with
  | nil => exact ⟨[], ts, rfl, .nil, h⟩
  | cons s ss ih =>
    obtain ⟨us, vs, rfl, hfirst, hrest⟩ := h.exists_of_cons
    obtain ⟨ws, xs, rfl, hws, hxs⟩ := ih hrest
    rw [List.append_assoc] at hfirst
    exact ⟨us ++ ws, xs, (List.append_assoc ..).symm, .cons hfirst hws, hxs⟩

end Symbol.AllWritten

/-! ### Symbols between cursors -/

namespace Cursor

/-- The tokens from `c` to `c'` stand for the symbols. -/
def Shows (c : Cursor) (ss : List Symbol) (c' : Cursor) : Prop :=
  ∃ ts, c.Moves ts c' ∧ Symbol.AllWritten ss ts c'.rest

variable {c c' c'' : Cursor} {ss rr : List Symbol} {t : Token} {ts : List Token}

theorem Shows.refl (c : Cursor) : c.Shows [] c := ⟨[], .refl c, .nil⟩

theorem Shows.trans (h : c.Shows ss c') (h' : c'.Shows rr c'') : c.Shows (ss ++ rr) c'' := by
  obtain ⟨ts, hmoves, hall⟩ := h
  obtain ⟨us, hmoves', hall'⟩ := h'
  rw [hmoves'.rest] at hall
  exact ⟨ts ++ us, hmoves.trans hmoves', hall.append hall'⟩

theorem Shows.cons {s : Symbol} (h : c.Shows [s] c') (h' : c'.Shows ss c'') :
    c.Shows (s :: ss) c'' := h.trans h'

theorem rest_advance (h : c.rest = t :: ts) : c.advance.rest = ts := by
  rw [advance, h]

/-- One token is one symbol. -/
theorem shows_advance {s : Symbol} (h : c.rest = t :: ts) (hs : s.Written [t] ts) :
    c.Shows [s] c.advance :=
  ⟨[t], .advance h, .single (by rwa [rest_advance h])⟩

theorem shows_fixed {k : TokenKind} (h : c.kind? = some k) : c.Shows [.fixed k] c.advance := by
  obtain ⟨t, ts, hrest, hkind⟩ := exists_cons h
  exact shows_advance hrest (.fixed hkind)

/-- The parenthesis that closes a call. -/
theorem shows_closing (h : c.kind? = some (.mark .closeParen)) :
    c.Shows [.closing c.advance.lastEnd] c.advance := by
  obtain ⟨t, ts, hrest, hkind⟩ := exists_cons h
  have hend : c.advance.lastEnd = t.range.stop := by rw [advance, hrest]
  rw [hend]
  exact shows_advance hrest (.closing hkind)

theorem isAtCall_eq_opensCall (h : c.rest = t :: ts) : c.isAtCall = Token.opensCall ts := by
  cases ts with
  | nil => simp [isAtCall, peekKind?, peek?, h, Token.opensCall]
  | cons u us => simp [isAtCall, peekKind?, peek?, isSpaced, h, Token.opensCall]

end Cursor

end ControlFile
