import ControlFile.Proofs.Expansion.Settled
import ControlFile.Proofs.Item.Complete
import Mathlib.Logic.Relation

/-!
# The course of an expansion

The expansion of an item is a recursion, and what it has done by the time it comes to some inner part is
not to be seen in its result.  Here that recursion is taken apart.  A `Point` says what is left to be
expanded, and the run so far; a `Step` goes into a part of what is left, or past a part whose expansion has
succeeded.  The run changes in three ways only: by what has been expanded, by the name that a declaration
declares before its value is expanded, and by the unique name that is given out for the body of a macro.

Every step leaves less (`Step.closer`), so each course ends.
-/

namespace ControlFile

/-! ### The parts of an item -/

/-- What is expanded for an expression that calls no macro, in its order: its operands, or the
arguments of the call. -/
def Expr.parts : Expr → List Argument
  | .literal _ | .ident _ => []
  | .call _ arguments _ => arguments
  | .unary _ operand => [.expr operand]
  | .binary _ lhs rhs => [.expr lhs, .expr rhs]
  | .paren inner => [.expr inner]

def Argument.parts : Argument → List Argument
  | .expr e => e.parts
  | .equation e | .parameter ⟨_, _, .equation e⟩ => [.expr e.body]
  | .hole | .parameter _ => []

/-- The sizes of the arguments together.  The row itself does not count, so that an argument has more
size than the row of its parts. -/
noncomputable def Argument.sizeAll : List Argument → Nat
  | [] => 0
  | a :: as => sizeOf a + Argument.sizeAll as

/-- The name of what is called, if it is a macro, and the arguments of the call. -/
def Expr.callee : Expr → Option (String × List Argument)
  | .ident name => some (name, [])
  | .call name arguments _ => some (name, arguments)
  | _ => none

def Argument.callee : Argument → Option (String × List Argument)
  | .expr e => e.callee
  | _ => none

/-- The arguments that are not by reference. -/
def Argument.byValue (byReference : Bool) : List MacroParam → List Argument → List Argument
  | [], _ | _, [] => []
  | p :: ps, a :: as =>
    if byReference || p.byReference then byValue byReference ps as else a :: byValue byReference ps as

/-- What is expanded for an item that has no items in it. -/
def ItemKind.parts : ItemKind → List Argument
  | .keyword _ e => e.toList.map .equation
  | .expr e | .directive (.out e) => [.expr e]
  | .parameter p | .declaration _ p => [.parameter p]
  | .equation e | .assignment _ e => [.equation e]
  | .existing a => [.equation a.equation]
  | .siteStatement s => s.slots.map .parameter
  | .directive (.prm _ e) => [.expr e.body]
  | _ => []

def Condition.parts : Condition → List Argument
  | .expr e => [.expr e]
  | _ => []

/-- The macro may be called with so many arguments: one hole need not be written. -/
def MacroEntry.Takes (entry : MacroEntry) (count : Nat) : Prop :=
  count = entry.arity ∨ count = 0 ∧ entry.arity = 1

/-- The name that an item declares before its value is expanded. -/
def ItemKind.declares : ItemKind → Option String
  | .declaration _ p => p.name
  | _ => none

namespace Expansion

open Expander (belowAt)

/-! ### The course of an expansion -/

/-- What is left to be expanded: arguments, items, the branches of a conditional, or copies of the items
in the body of a macro. -/
inductive Part
  | arguments (as : List Argument)
  | items (is : List Item)
  | chain (c : Chain)
  | copies (s : Substitution) (body : List Item)

/-- Where an expansion stands: how deep it may still go, for which item, what is left, and the run so
far. -/
structure Point where
  levels : Nat
  frame : Frame
  range : Extent
  part : Part
  run : Run

/-- The call of a macro with its arguments. -/
def callAt (place : Place) (name : String) (arguments : List Argument) : Expansion (List Item) :=
  callWith place name arguments.length fun signature =>
    bindArguments place signature.byReference signature.params [] arguments

/-- How an expansion goes on: into a part of what is left, or past a part that has been expanded. -/
inductive Step (config : Config) : Point → Point → Prop
  /-- Into an argument that is no call of a macro. -/
  | part {n f x a as r} (h : ∀ c ∈ a.callee, r.tables.macros.contains c.1 = false) :
      Step config ⟨n, f, x, .arguments (a :: as), r⟩ ⟨n, f, x, .arguments a.parts, r⟩
  | pastArgument {n f x a as b r r'} (h : expandArgument (placeAt config n f x) a r = .ok b r') :
      Step config ⟨n, f, x, .arguments (a :: as), r⟩ ⟨n, f, x, .arguments as, r'⟩
  /-- Into the arguments of a call. -/
  | byValue {n f x a as name arguments entry r} (hcallee : a.callee = some (name, arguments))
      (hentry : r.tables.macros.get? name = some entry) (harity : entry.Takes arguments.length) :
      Step config ⟨n + 1, f, x, .arguments (a :: as), r⟩
        ⟨n + 1, f, x,
          .arguments (Argument.byValue entry.signature.byReference entry.signature.params arguments), r⟩
  /-- Into the body of a macro, whose arguments have been bound.  It has been given a unique name. -/
  | body {n f x a as name arguments entry bound r r'} (hcallee : a.callee = some (name, arguments))
      (hentry : r.tables.macros.get? name = some entry) (harity : entry.Takes arguments.length)
      (hbound : bindArguments (placeAt config (n + 1) f x) entry.signature.byReference
        entry.signature.params [] arguments r = .ok bound r') :
      Step config ⟨n + 1, f, x, .arguments (a :: as), r⟩
        ⟨n, f.inCall x, x, .copies ⟨bound, r'.tables.nextUnique.1⟩ entry.body,
          { r' with tables := r'.tables.nextUnique.2 }⟩
  | pastCall {n f x a as name arguments is r r'} (hcallee : a.callee = some (name, arguments))
      (h : callAt (placeAt config n f x) name arguments r = .ok is r') :
      Step config ⟨n, f, x, .arguments (a :: as), r⟩ ⟨n, f, x, .arguments as, r'⟩
  /-- Into the expressions of an item.  If it is a declaration, the name is declared by then. -/
  | parts {n f x i is r} (h : ∀ a, i.kind = .existing a → r.tables.isDeclared a.name = true) :
      Step config ⟨n, f, x, .items (i :: is), r⟩
        ⟨n, f, i.range, .arguments i.kind.parts,
          { r with tables := declaring r.tables i.kind.declares }⟩
  | site {n f x name members range is r} :
      Step config ⟨n, f, x, .items (⟨.site name members, range⟩ :: is), r⟩
        ⟨n, f, range, .items members, r⟩
  | block {n f x inner range is r} :
      Step config ⟨n, f, x, .items (⟨.block inner, range⟩ :: is), r⟩ ⟨n, f, range, .items inner, r⟩
  | conditional {n f x family c range is r} :
      Step config ⟨n, f, x, .items (⟨.conditional family c, range⟩ :: is), r⟩
        ⟨n, f, range, .chain c, r⟩
  | pastItem {n f x i is js r r'} (h : itemAt config n f i r = .ok js r') :
      Step config ⟨n, f, x, .items (i :: is), r⟩ ⟨n, f, x, .items is, r'⟩
  | condition {n f x c is rest r} :
      Step config ⟨n, f, x, .chain (.branch c is rest), r⟩ ⟨n, f, x, .arguments c.parts, r⟩
  | taken {n f x c is rest r r'} (h : holds (placeAt config n f x) c r = .ok true r') :
      Step config ⟨n, f, x, .chain (.branch c is rest), r⟩ ⟨n, f, x, .items is, r'⟩
  | skipped {n f x c is rest r r'} (h : holds (placeAt config n f x) c r = .ok false r') :
      Step config ⟨n, f, x, .chain (.branch c is rest), r⟩ ⟨n, f, x, .chain rest, r'⟩
  | otherwise {n f x is r} :
      Step config ⟨n, f, x, .chain (.otherwise is), r⟩ ⟨n, f, x, .items is, r⟩
  | copied {n f x s i is j r r'} (h : substitute s x i r = .ok (some j) r') :
      Step config ⟨n, f, x, .copies s (i :: is), r⟩ ⟨n, f, x, .items [j], r'⟩
  | pastCopy {n f x s i is j js r r' r''} (h : substitute s x i r = .ok (some j) r')
      (hj : itemAt config n f j r' = .ok js r'') :
      Step config ⟨n, f, x, .copies s (i :: is), r⟩ ⟨n, f, x, .copies s is, r''⟩
  | dropped {n f x s i is r r'} (h : substitute s x i r = .ok none r') :
      Step config ⟨n, f, x, .copies s (i :: is), r⟩ ⟨n, f, x, .copies s is, r'⟩

/-- The course of an expansion from one point to another. -/
abbrev Course (config : Config) : Point → Point → Prop := Relation.ReflTransGen (Step config)

/-! ### Each step leaves less -/

/-- How far the part is from expressions. -/
def Part.rank : Part → Nat
  | .arguments _ => 0
  | .items _ | .chain _ => 1
  | .copies .. => 2

noncomputable def Part.size : Part → Nat
  | .arguments as => Argument.sizeAll as
  | .items is => sizeOf is
  | .chain c => sizeOf c
  | .copies _ body => body.length

theorem sizeAll_le (as : List Argument) : Argument.sizeAll as ≤ sizeOf as := by
  induction as with
  | nil => exact Nat.zero_le _
  | cons a as ih =>
    simp only [Argument.sizeAll, List.cons.sizeOf_spec]
    omega

theorem sizeOf_body_lt (e : Equation) : sizeOf e.body + 1 < sizeOf e := by
  obtain ⟨op, body, u⟩ := e
  have hpositive : 0 < sizeOf op := by cases op <;> decide
  simp only [Equation.mk.sizeOf_spec]
  omega

theorem size_parts_lt (a : Argument) : Argument.sizeAll a.parts < sizeOf a := by
  cases a with
  | hole => decide
  | expr e =>
    cases e with
    | call name arguments range =>
      have hle := sizeAll_le arguments
      simp only [Argument.parts, Expr.parts, Argument.expr.sizeOf_spec, Expr.call.sizeOf_spec]
      omega
    | binary op lhs rhs =>
      have hpositive : 0 < sizeOf op := by cases op <;> decide
      simp only [Argument.parts, Expr.parts, Argument.sizeAll, Argument.expr.sizeOf_spec,
        Expr.binary.sizeOf_spec]
      omega
    | unary op operand =>
      simp only [Argument.parts, Expr.parts, Argument.sizeAll, Argument.expr.sizeOf_spec,
        Expr.unary.sizeOf_spec]
      omega
    | paren inner =>
      simp only [Argument.parts, Expr.parts, Argument.sizeAll, Argument.expr.sizeOf_spec,
        Expr.paren.sizeOf_spec]
      omega
    | _ =>
      simp only [Argument.parts, Expr.parts, Argument.sizeAll, Argument.expr.sizeOf_spec]
      omega
  | equation e =>
    have hbody := sizeOf_body_lt e
    simp only [Argument.parts, Argument.sizeAll, Argument.expr.sizeOf_spec,
      Argument.equation.sizeOf_spec]
    omega
  | parameter p =>
    obtain ⟨mark, m, w⟩ := p
    cases w with
    | equation e =>
      have hbody := sizeOf_body_lt e
      simp only [Argument.parts, Argument.sizeAll, Argument.expr.sizeOf_spec,
        Argument.parameter.sizeOf_spec, Parameter.mk.sizeOf_spec, Value.equation.sizeOf_spec]
      omega
    | _ =>
      simp only [Argument.parts, Argument.sizeAll, Argument.parameter.sizeOf_spec]
      omega

theorem size_byValue_le (byReference : Bool) (params : List MacroParam) (as : List Argument) :
    Argument.sizeAll (Argument.byValue byReference params as) ≤ sizeOf as := by
  induction as generalizing params with
  | nil => cases params <;> exact Nat.zero_le _
  | cons a as ih =>
    cases params with
    | nil => exact Nat.zero_le _
    | cons p ps =>
      have hrest := ih ps
      simp only [Argument.byValue, List.cons.sizeOf_spec]
      split
      · omega
      · simp only [Argument.sizeAll]
        omega

theorem sizeOf_callee_lt {a : Argument} {name : String} {arguments : List Argument}
    (h : a.callee = some (name, arguments)) : sizeOf arguments < sizeOf a := by
  cases a with
  | expr e => cases e <;> cases h <;> simp <;> omega
  | _ => cases h

/-- Fewer levels are left, or what is left is closer to expressions, or smaller. -/
abbrev Closer (q p : Point) : Prop :=
  Prod.Lex (· < ·) (Prod.Lex (· < ·) (· < ·)) (q.levels, q.part.rank, q.part.size)
    (p.levels, p.part.rank, p.part.size)

theorem Closer.of_size {n : Nat} {f f' : Frame} {x x' : Extent} {k k' : Part} {r r' : Run}
    (hrank : k.rank = k'.rank) (h : k.size < k'.size) : Closer ⟨n, f, x, k, r⟩ ⟨n, f', x', k', r'⟩ := by
  unfold Closer
  rw [hrank]
  exact .right _ (.right _ h)

theorem Closer.of_rank {n : Nat} {f f' : Frame} {x x' : Extent} {k k' : Part} {r r' : Run}
    (h : k.rank < k'.rank) : Closer ⟨n, f, x, k, r⟩ ⟨n, f', x', k', r'⟩ := .right _ (.left _ _ h)

/-- **Each step leaves less.** -/
theorem Step.closer {p q : Point} (h : Step config p q) : Closer q p := by
  cases h with
  | @part _ _ _ a as =>
    have hsize := size_parts_lt a
    exact .of_size rfl (by simp only [Part.size, Argument.sizeAll]; omega)
  | @pastArgument _ _ _ a as =>
    have hsize := size_parts_lt a
    exact .of_size rfl (by simp only [Part.size, Argument.sizeAll]; omega)
  | @byValue _ _ _ a as _ arguments entry _ hcallee =>
    have hle := size_byValue_le entry.signature.byReference entry.signature.params arguments
    have hlt := sizeOf_callee_lt hcallee
    exact .of_size rfl (by simp only [Part.size, Argument.sizeAll]; omega)
  | body => exact .left _ _ (Nat.lt_succ_self _)
  | @pastCall _ _ _ a as =>
    have hsize := size_parts_lt a
    exact .of_size rfl (by simp only [Part.size, Argument.sizeAll]; omega)
  | parts => exact .of_rank Nat.zero_lt_one
  | site =>
    refine .of_size rfl ?_
    simp only [Part.size, List.cons.sizeOf_spec, Item.mk.sizeOf_spec, ItemKind.site.sizeOf_spec]
    omega
  | block =>
    refine .of_size rfl ?_
    simp only [Part.size, List.cons.sizeOf_spec, Item.mk.sizeOf_spec, ItemKind.block.sizeOf_spec]
    omega
  | conditional =>
    refine .of_size rfl ?_
    simp only [Part.size, List.cons.sizeOf_spec, Item.mk.sizeOf_spec, ItemKind.conditional.sizeOf_spec]
    omega
  | @pastItem _ _ _ i =>
    refine .of_size rfl ?_
    have hpositive : 0 < sizeOf i := by cases i; simp only [Item.mk.sizeOf_spec]; omega
    simp only [Part.size, List.cons.sizeOf_spec]
    omega
  | condition => exact .of_rank Nat.zero_lt_one
  | taken =>
    refine .of_size rfl ?_
    simp only [Part.size, Chain.branch.sizeOf_spec]
    omega
  | skipped =>
    refine .of_size rfl ?_
    simp only [Part.size, Chain.branch.sizeOf_spec]
    omega
  | otherwise =>
    refine .of_size rfl ?_
    simp only [Part.size, Chain.otherwise.sizeOf_spec]
    omega
  | copied => exact .of_rank Nat.one_lt_two
  | pastCopy => exact .of_size rfl (Nat.lt_succ_self _)
  | dropped => exact .of_size rfl (Nat.lt_succ_self _)

end Expansion

end ControlFile
