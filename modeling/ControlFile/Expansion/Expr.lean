import ControlFile.Expansion.Basic
import ControlFile.Expr.Eval

/-!
# Expanding expressions

A macro in an expression has to expand to one expression, which takes its place; an operation is
put in parentheses.  Arguments are expanded before the call, unless they are passed by reference.

The body of a macro is expanded one level deeper than its call.  `below` expands an item at that
level; there is none where the limit of the depth is reached.
-/

namespace ControlFile.Expansion

/-- The expansion of an item one level deeper, if there is such a level. -/
abbrev Below := Option (Frame → Item → Expansion (List Item))

/-- Where and how an expression is expanded: `range` is the place of the item it belongs to. -/
structure Place where
  config : Config
  below : Below
  frame : Frame
  range : Extent

/-- The items of the body of a macro, each substituted and then expanded. -/
def expandBody (s : Substitution) (range : Extent) (one : Item → Expansion (List Item)) :
    List Item → Expansion (List Item)
  | [] => return []
  | i :: is => do
    let produced ← match ← substitute s range i with
      | some item => one item
      | none => pure []
    let rest ← expandBody s range one is
    return produced ++ rest

/-- Calls the macro `name` with `count` arguments, which `bind` binds to its parameters.  A macro
with one parameter may be called with none: the argument is a hole then.  All that the call
produces, faults too, is placed at the call. -/
def callWith (place : Place) (name : String) (count : Nat)
    (bind : Signature → Expansion Bindings) : Expansion (List Item) := do
  match (← tables).macros.get? name with
  | none => failAt place.range (.unresolved name)
  | some entry =>
    if count ≠ entry.arity ∧ ¬(count = 0 ∧ entry.arity = 1) then
      failAt place.range (.arityMismatch name entry.arity count)
    else
      match place.below with
      | none => failAt place.range (.depthExceeded name place.config.options.maxDepth)
      | some below =>
        let bound ← bind entry.signature
        let unique ← nextUnique
        let items ← relocating place.range
          (expandBody ⟨bound, unique⟩ place.range (below (place.frame.inCall place.range)) entry.body)
        return items.map fun i => { i with range := place.range }

/-- The expression that the call of a macro expands to. -/
def inlineWith (place : Place) (name : String) (count : Nat)
    (bind : Signature → Expansion Bindings) : Expansion Expr := do
  match ← callWith place name count bind with
  | [⟨.expr e, _⟩] => return e.parenthesized
  | _ => failAt place.range (.argument (.notOneExpression name))

/-- Binds a parameter that has a name. -/
def bindParam (p : MacroParam) (a : Argument) (bound : Bindings) : Bindings :=
  match p.name with
  | some n => (n, a) :: bound
  | none => bound

/-- Binds parameters that no argument is given for. -/
def bindHoles (params : List MacroParam) (bound : Bindings) : Bindings :=
  params.foldl (fun b p => bindParam p .hole b) bound

mutual

def expandExpr (place : Place) : Expr → Expansion Expr
  | .literal value => return .literal value
  | .ident name => do
    if (← tables).macros.contains name then
      inlineWith place name 0 fun signature => return bindHoles signature.params []
    else return .ident name
  | .call name arguments range => do
    let macros := (← tables).macros
    if macros.contains name then
      inlineWith place name arguments.length fun signature =>
        bindArguments place signature.byReference signature.params [] arguments
    else if macros.isDeleted name then failAt place.range (.unresolved name)
    else return .call name (← expandArguments place arguments) range
  | .unary op operand => do return .unary op (← expandExpr place operand)
  | .binary op lhs rhs => do
    let l ← expandExpr place lhs
    let r ← expandExpr place rhs
    return .binary op l r
  | .paren inner => do return .paren (← expandExpr place inner)

def expandArguments (place : Place) : List Argument → Expansion (List Argument)
  | [] => return []
  | a :: as => do
    let b ← expandArgument place a
    let bs ← expandArguments place as
    return b :: bs

/-- Binds arguments to parameters.  Those by reference are bound as they are. -/
def bindArguments (place : Place) (byReference : Bool) (params : List MacroParam) (bound : Bindings) :
    List Argument → Expansion Bindings
  | [] => return bindHoles params bound
  | a :: as =>
    match params with
    | [] => return bound
    | p :: ps => do
      let b ← if byReference || p.byReference then pure a else expandArgument place a
      bindArguments place byReference ps (bindParam p b bound) as

def expandArgument (place : Place) : Argument → Expansion Argument
  | .hole => return .hole
  | .expr e => do return .expr (← expandExpr place e)
  | .parameter p => do return .parameter (← expandParameter place p)
  | .equation e => do return .equation (← expandEquation place e)

def expandParameter (place : Place) : Parameter → Expansion Parameter
  | ⟨refinement, name, value⟩ => do return ⟨refinement, name, ← expandValue place value⟩

def expandValue (place : Place) : Value → Expansion Value
  | .absent => return .absent
  | .literal value => return .literal value
  | .equation e => do return .equation (← expandEquation place e)

def expandEquation (place : Place) : Equation → Expansion Equation
  | ⟨op, body, uncertainty⟩ => do return ⟨op, ← expandExpr place body, uncertainty⟩

end

/-- Calls a macro, or expands the macros in an expression that stands as an item. -/
def expandExprItem (place : Place) (e : Expr) : Expansion (List Item) := do
  let macros := (← tables).macros
  let keep : Expansion (List Item) := do return [⟨.expr (← expandExpr place e), place.range⟩]
  match e with
  | .call name arguments _ =>
    if macros.contains name then
      callWith place name arguments.length fun signature =>
        bindArguments place signature.byReference signature.params [] arguments
    else keep
  | .ident name =>
    if macros.contains name then
      callWith place name 0 fun signature => return bindHoles signature.params []
    else keep
  | _ => keep

/-- The number that an expression stands for, once it has been expanded. -/
def evaluate (place : Place) (e : Expr) : Expansion Float := do
  let expanded ← expandExpr place e
  let t ← tables
  liftFault place.range (expanded.evaluate t.valueOf?)

/-- Whether a condition holds. A test of an argument has been decided in the body of a macro;
elsewhere there are no arguments. -/
def holds (place : Place) : Condition → Expansion Bool
  | .defined symbol negated => do return (← tables).isDefined symbol != negated
  | .expr e => do return (← evaluate place e) != 0.0
  | .argument param _ => failAt place.range (.unresolved param)

end ControlFile.Expansion
