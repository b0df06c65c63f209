import ControlFile.Expr.Parser
import ControlFile.Item.Printer
import ControlFile.Text.Blank

/-!
# Arguments in the place of parameters

What an argument becomes depends on where the parameter stood: alone among items, in an
expression, in the place of a value, or in the place of a name.
-/

namespace ControlFile

/-- The words of a text. -/
def wordsOf (text : String) : List String := (Text.words text.toList).map String.ofList

/-- Reads a word back as an item: a mark, a number, a string, or else a name. -/
def ItemKind.ofWord (word : String) : ItemKind :=
  let cs := word.toList
  let quote := '\x22'
  match word with
  | "@" => .parameter ⟨.refined, none, .absent⟩
  | "!" => .parameter ⟨.unrefined, none, .absent⟩
  | _ =>
    match (Decimal.readInt? cs).filter fitsInteger with
    | some n => .expr (.literal (.integer n))
    | none =>
      if (cs.head?.map fun c => c.isDigit || c == '.' || c == '-').getD false then
        match Decimal.readNumber? cs with
        | some x => .expr (.literal (.decimal x))
        | none => .expr (.ident word)
      else if 2 ≤ cs.length && cs.head? == some quote && cs.getLast? == some quote then
        .expr (.literal (.string (unquote word)))
      else .expr (.ident word)

namespace Argument

/-- As an item.  A hole is no item. -/
def toItem? : Argument → Option ItemKind
  | .hole => none
  | .parameter p => some (.parameter p)
  | .expr e => some (.expr e)
  | .equation e => some (.equation e)

/-- As an operand: an operation is put in parentheses, and a parameter is its name or else its
literal. -/
def toExpr? : Argument → Option Expr
  | .hole => none
  | .expr e => some e.parenthesized
  | .equation e => some e.body.parenthesized
  | .parameter ⟨_, some name, _⟩ => some (.ident name)
  | .parameter ⟨_, none, .literal value⟩ => some (.literal value)
  | .parameter _ => none

/-- As a place for a value. -/
def toParameter : Argument → Parameter
  | .hole => .empty
  | .parameter p => p
  | .equation e => .ofEquation e
  | .expr (.literal value) => .ofLiteral value
  | .expr (.ident name) => .ofName name
  | .expr e => .ofEquation ⟨.set, e, none⟩

/-- The text of the argument without blanks, unless nothing is left. -/
def joinedWords? (a : Argument) : Option String :=
  let word := String.join (wordsOf a.render)
  if word.isEmpty then none else some word

/-- As a name: its own one, or else its text without blanks, as in `Fe + 3` for `Fe+3`. -/
def toWord? : Argument → Option String
  | .hole | .equation _ => none
  | .expr (.ident name) => some name
  | .expr (.literal (.string text)) => some text
  | .expr e => joinedWords? (.expr e)
  | .parameter ⟨_, some name, _⟩ => some name
  | .parameter p => joinedWords? (.parameter p)

/-- The first word of the text of the argument, as an item. -/
def firstWord? (a : Argument) : Option ItemKind := (wordsOf a.render).head?.map ItemKind.ofWord

/-- As a parameter that is not refined. -/
def toUnrefined (a : Argument) : Parameter :=
  let p := a.toParameter
  if p.refinement = .refined then { p with refinement := .unrefined } else p

/-- Whether the argument has the form, or the text, that is tested for. -/
def passes (a : Argument) : ArgumentTest → Bool
  | .form .code =>
    match a with
    | .parameter p => p.refinement != .plain
    | _ => false
  | .form .codeRefine =>
    match a with
    | .parameter p => p.refinement == .refined
    | _ => false
  | .form .equation =>
    match a with
    | .equation _ => true
    | _ => false
  | .form .oneWord => (wordsOf a.render).length == 1
  | .text text => String.ofList (Text.trim a.render.toList) == text

end Argument

end ControlFile
