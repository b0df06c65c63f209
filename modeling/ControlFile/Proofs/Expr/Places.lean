import ControlFile.Proofs.Expr.Precedence
import ControlFile.Proofs.Token.Parts

/-!
# Where calls stand

A call keeps its place in the text.  `Expr.places` are those of the calls in an expression, but for the
calls in arguments; `Expr.CallsPlaced` says that these lie inside the call whose arguments they are in.

The symbols of an expression say where its calls start and end, so the tokens that are consumed for an
expression do (`Expr.lays`).
-/

namespace ControlFile

/-! ### Places of calls -/

/-- The places of the calls that are no arguments, from left to right. -/
def Expr.places : Expr → List Extent
  | .literal _ | .ident _ => []
  | .call _ _ range => [range]
  | .unary _ operand => operand.places
  | .binary _ lhs rhs => lhs.places ++ rhs.places
  | .paren inner => inner.places

def Equation.places (q : Equation) : List Extent := q.body.places

def Value.places : Value → List Extent
  | .absent | .literal _ => []
  | .equation q => q.places

def Parameter.places (p : Parameter) : List Extent := p.value.places

def Argument.places : Argument → List Extent
  | .hole => []
  | .parameter p => p.places
  | .expr e => e.places
  | .equation q => q.places

mutual

/-- The calls in the arguments of a call lie inside it, one behind the other. -/
def Expr.CallsPlaced : Expr → Prop
  | .literal _ | .ident _ => True
  | .call _ arguments range =>
    Extent.Row range.start range.stop (arguments.flatMap Argument.places) ∧
      Argument.AllCallsPlaced arguments
  | .unary _ operand => operand.CallsPlaced
  | .binary _ lhs rhs => lhs.CallsPlaced ∧ rhs.CallsPlaced
  | .paren inner => inner.CallsPlaced

def Argument.AllCallsPlaced : List Argument → Prop
  | [] => True
  | a :: as => a.CallsPlaced ∧ Argument.AllCallsPlaced as

def Argument.CallsPlaced : Argument → Prop
  | .hole => True
  | .parameter param => param.CallsPlaced
  | .expr expr => expr.CallsPlaced
  | .equation equation => equation.CallsPlaced

def Parameter.CallsPlaced : Parameter → Prop
  | ⟨_, _, value⟩ => value.CallsPlaced

def Value.CallsPlaced : Value → Prop
  | .absent | .literal _ => True
  | .equation equation => equation.CallsPlaced

def Equation.CallsPlaced : Equation → Prop
  | ⟨_, body, _⟩ => body.CallsPlaced

end

/-! ### Places in a row of tokens -/

/-- The tokens of a call are those from its name to the parenthesis that closes it. -/
theorem exists_of_call {name : String} {range : Extent} {ss : List Symbol} {ts behind : List Token}
    (h : Symbol.AllWritten (.callee name range.start :: .fixed (.mark .openParen) ::
      (ss ++ [.closing range.stop])) ts behind) :
    ts ≠ [] ∧ Token.hull ts = range ∧ ∃ us vs ws behind', ts = us ++ (vs ++ ws) ∧
      Symbol.AllWritten ss vs behind' := by
  obtain ⟨us, _, rfl, hname, h⟩ := h.exists_of_cons
  obtain ⟨ps, _, rfl, -, h⟩ := h.exists_of_cons
  obtain ⟨vs, _, rfl, hargs, h⟩ := h.exists_of_append
  obtain ⟨ws, ns, rfl, hclosing, h⟩ := h.exists_of_cons
  cases h
  obtain ⟨start, stop⟩ := range
  obtain ⟨t, rfl, rfl⟩ : ∃ t, us = [t] ∧ t.range.start = start := by
    cases hname
    exact ⟨_, rfl, rfl⟩
  obtain ⟨u, rfl, rfl⟩ : ∃ u, ws = [u] ∧ u.range.stop = stop := by
    cases hclosing
    exact ⟨_, rfl, rfl⟩
  refine ⟨by simp, ?_, [t] ++ ps, vs, [u], _, by simp, hargs⟩
  rw [List.append_nil, List.singleton_append, Token.hull_cons, Token.endFrom_append,
    Token.endFrom_append]
  rfl

mutual

/-- The calls of an expression stand at its tokens. -/
theorem Expr.lays : (e : Expr) → ∀ {ts behind : List Token},
    Symbol.AllWritten e.symbols ts behind → Token.Lays ts e.places e.CallsPlaced
  | .literal _, _, _, _ => .nil _ trivial
  | .ident _, _, _, _ => .nil _ trivial
  | .call _ as range, _, _, h => by
    obtain ⟨hne, hhull, us, vs, ws, behind', hsplit, hargs⟩ := exists_of_call h
    have hwhole := (((Argument.laysAll as hargs).before ws).behind us).whole (hsplit ▸ hne)
    rw [← hsplit, hhull] at hwhole
    exact hwhole
  | .unary op operand, _, _, h => by
    obtain ⟨us, vs, rfl, -, hoperand⟩ := h.exists_of_cons
    exact (Expr.lays operand hoperand).behind us
  | .binary op lhs rhs, _, _, h => by
    obtain ⟨us, vs, rfl, hlhs, hrhs⟩ := h.exists_of_append
    obtain ⟨us, ws, rfl, hlhs, -⟩ := hlhs.exists_of_append
    exact ((Expr.lays lhs hlhs).before ws).append (Expr.lays rhs hrhs)
  | .paren inner, _, _, h => by
    obtain ⟨us, vs, rfl, -, h⟩ := h.exists_of_cons
    obtain ⟨vs, ws, rfl, hinner, -⟩ := h.exists_of_append
    exact ((Expr.lays inner hinner).before ws).behind us

theorem Argument.laysAll : (as : List Argument) → ∀ {ts behind : List Token},
    Symbol.AllWritten (Argument.symbolsAll as) ts behind →
      Token.Lays ts (as.flatMap Argument.places) (Argument.AllCallsPlaced as)
  | [], _, _, _ => .nil _ trivial
  | [a], _, _, h => by
    have ha := Argument.lays a h
    rw [List.flatMap_cons, List.flatMap_nil, List.append_nil]
    exact ha.imp fun hplaced => ⟨hplaced, trivial⟩
  | a :: b :: as, _, _, h => by
    obtain ⟨us, vs, rfl, ha, h⟩ := h.exists_of_append
    obtain ⟨cs, ws, rfl, -, has⟩ := h.exists_of_cons
    exact (Argument.lays a ha).append ((Argument.laysAll (b :: as) has).behind cs)

theorem Argument.lays : (a : Argument) → ∀ {ts behind : List Token},
    Symbol.AllWritten a.symbols ts behind → Token.Lays ts a.places a.CallsPlaced
  | .hole, _, _, _ => .nil _ trivial
  | .parameter param, _, _, h => Parameter.lays param h
  | .expr expr, _, _, h => Expr.lays expr h
  | .equation equation, _, _, h => Equation.lays equation h

theorem Parameter.lays : (p : Parameter) → ∀ {ts behind : List Token},
    Symbol.AllWritten p.symbols ts behind → Token.Lays ts p.places p.CallsPlaced
  | ⟨_, _, value⟩, _, _, h => by
    obtain ⟨us, vs, rfl, -, hvalue⟩ := h.exists_of_append
    exact (Value.lays value hvalue).behind us

theorem Value.lays : (value : Value) → ∀ {ts behind : List Token},
    Symbol.AllWritten value.symbols ts behind → Token.Lays ts value.places value.CallsPlaced
  | .absent, _, _, _ => .nil _ trivial
  | .literal _, _, _, _ => .nil _ trivial
  | .equation equation, _, _, h => Equation.lays equation h

theorem Equation.lays : (q : Equation) → ∀ {ts behind : List Token},
    Symbol.AllWritten q.symbols ts behind → Token.Lays ts q.places q.CallsPlaced
  | ⟨_, body, _⟩, _, _, h => by
    obtain ⟨us, vs, rfl, -, h⟩ := h.exists_of_cons
    obtain ⟨vs, ws, rfl, hbody, -⟩ := h.exists_of_append
    exact ((Expr.lays body hbody).before ws).behind us

end

end ControlFile
