import ControlFile.Item.Printer
import ControlFile.Proofs.Expr.Grouping
import ControlFile.Proofs.Item.Complete

/-!
# What the writing of items shows

An item that is written does not show its place in the text (`Item.Change.bare`), nor whether there
was space between a minus and the number behind it (`Item.Change.foldSigns`).

Such a space can also tell two items apart.  A place for a value may be left open, and a minus that
does not touch the number behind it is no value: in `@ - 2` the place is open, and `- 2` is the next
item.  Written, the minus touches the number, and that is a value.  Items are *separate* if this
happens nowhere.
-/

namespace ControlFile

/-! ### Items with other parts -/

/-- What is put in the place of the parts of an item. -/
structure Item.Change where
  expr : Expr → Expr
  parameter : Parameter → Parameter
  equation : Equation → Equation
  range : Extent → Extent

namespace Item.Change

/-- Without the places. -/
def bare : Change := ⟨Expr.bare, Parameter.bare, Equation.bare, fun _ => .emptyAt 0⟩

/-- With each minus taken into the number behind it. -/
def foldSigns : Change := ⟨(·.foldSigns false), Parameter.foldSigns, Equation.foldSigns, id⟩

end Item.Change

section Change

variable (f : Item.Change)

def Assignment.change (a : Assignment) : Assignment := { a with equation := f.equation a.equation }

def OccModifier.change (m : OccModifier) : OccModifier := { m with value := f.parameter m.value }

def Adps.map {α β : Type} (g : α → β) (a : Adps α) : Adps β :=
  ⟨g a.u11, g a.u22, g a.u33, g a.u12, g a.u13, g a.u23⟩

def Occupancy.change (occ : Occupancy) : Occupancy where
  atom := occ.atom
  value := f.parameter occ.value
  modifiers := occ.modifiers.map (·.change f)

def SiteStatement.change : SiteStatement → SiteStatement
  | .coordinate axis value => .coordinate axis (f.parameter value)
  | .occupancy occ => .occupancy (occ.change f)
  | .scalar word value => .scalar word (f.parameter value)
  | .adps values => .adps (values.map f.parameter)

def Directive.change : Directive → Directive
  | .prm name equation => .prm name (f.equation equation)
  | .out expr => .out (f.expr expr)
  | d => d

def Signature.change (s : Signature) : Signature := { s with range := f.range s.range }

def Condition.change : Condition → Condition
  | .expr e => .expr (f.expr e)
  | c => c

mutual

def Item.change : Item → Item
  | ⟨kind, range⟩ => ⟨kind.change, f.range range⟩

def ItemKind.change : ItemKind → ItemKind
  | .keyword word equation => .keyword word (equation.map f.equation)
  | .expr expr => .expr (f.expr expr)
  | .parameter param => .parameter (f.parameter param)
  | .equation equation => .equation (f.equation equation)
  | .assignment name equation => .assignment name (f.equation equation)
  | .declaration scope param => .declaration scope (f.parameter param)
  | .existing assignment => .existing (assignment.change f)
  | .site name members => .site name (Item.changeAll members)
  | .siteStatement statement => .siteStatement (statement.change f)
  | .directive directive => .directive (directive.change f)
  | .macroDecl isList signatures body =>
    .macroDecl isList (signatures.map (·.change f)) (Item.changeAll body)
  | .conditional family chain => .conditional family chain.change
  | .bodyOp op param => .bodyOp op param
  | .block items => .block (Item.changeAll items)

def Chain.change : Chain → Chain
  | .done => .done
  | .otherwise items => .otherwise (Item.changeAll items)
  | .branch condition items rest =>
    .branch (condition.change f) (Item.changeAll items) rest.change

def Item.changeAll : List Item → List Item
  | [] => []
  | i :: is => i.change :: Item.changeAll is

end

end Change

/-- The items without their places, and without those of the signatures and calls in them. -/
def Item.bareAll (is : List Item) : List Item := Item.changeAll .bare is

/-- The items with each minus in them taken into the number behind it. -/
def Item.foldSignsAll (is : List Item) : List Item := Item.changeAll .foldSigns is

/-! ### Open places -/

/-- No value has been put there. -/
def Parameter.isOpen (p : Parameter) : Bool := !p.value.isPresent

/-- The last of the places is open. -/
def Occupancy.isOpen (occ : Occupancy) : Bool :=
  ((occ.modifiers.getLast?.map (·.value)).getD occ.value).isOpen

/-- The statement ends with an open place. -/
def SiteStatement.isOpen : SiteStatement → Bool
  | .coordinate _ value | .scalar _ value => value.isOpen
  | .occupancy occ => occ.isOpen
  | .adps values => values.u23.isOpen

mutual

/-- The item ends with an open place. -/
def Item.isOpen : Item → Bool
  | ⟨kind, _⟩ => kind.isOpen

def ItemKind.isOpen : ItemKind → Bool
  | .parameter param | .declaration _ param => param.isOpen
  | .siteStatement statement => statement.isOpen
  | .site _ members => Item.endsOpen members
  | _ => false

/-- The last item ends with an open place. -/
def Item.endsOpen : List Item → Bool
  | [] => false
  | [i] => i.isOpen
  | _ :: is => Item.endsOpen is

end

/-! ### Signs at the start -/

namespace Expr

/-- Written, the expression starts with a number. -/
def startsNumber : Expr → Bool
  | .literal value => value.isNumber && !value.isNegative
  | .binary _ lhs _ => lhs.startsNumber
  | _ => false

/-- Written, the expression starts with a minus that touches a number. -/
def startsNegative : Expr → Bool
  | .literal value => value.isNegative
  | .unary .minus operand => operand.startsNumber
  | .binary _ lhs _ => lhs.startsNegative
  | _ => false

end Expr

def ItemKind.startsNegative : ItemKind → Bool
  | .expr e => e.startsNegative
  | _ => false

/-! ### Separate items -/

/-- Behind an open place there is no minus that would be written onto a number. -/
def Item.Separate : List Item → Prop
  | [] => True
  | i :: is =>
    (i.isOpen = true → ∀ j ∈ is.head?, j.kind.startsNegative = false) ∧ Item.Separate is

/-- The items of each branch are separate. -/
def Chain.Separate : Chain → Prop
  | .done => True
  | .otherwise items => Item.Separate items
  | .branch _ items rest => Item.Separate items ∧ rest.Separate

/-- The items in what an item is are separate. -/
def ItemKind.Separate : ItemKind → Prop
  | .site _ members => Item.Separate members
  | .macroDecl _ _ body => Item.Separate body
  | .conditional _ chain => chain.Separate
  | .block items => Item.Separate items
  | _ => True

/-- The items are separate, and so are those in them, at any depth. -/
def Item.AllSeparate (is : List Item) : Prop :=
  Item.Separate is ∧ Item.AllEverywhere (fun i => i.kind.Separate) is

section Decidable

instance Item.decidableSeparate : ∀ is : List Item, Decidable (Item.Separate is)
  | [] => inferInstanceAs (Decidable True)
  | i :: is =>
    have := Item.decidableSeparate is
    inferInstanceAs (Decidable ((i.isOpen = true →
      ∀ j ∈ is.head?, j.kind.startsNegative = false) ∧ Item.Separate is))

instance Chain.decidableSeparate : ∀ c : Chain, Decidable c.Separate
  | .done => inferInstanceAs (Decidable True)
  | .otherwise items => inferInstanceAs (Decidable (Item.Separate items))
  | .branch _ items rest =>
    have := rest.decidableSeparate
    inferInstanceAs (Decidable (Item.Separate items ∧ rest.Separate))

instance ItemKind.decidableSeparate : ∀ k : ItemKind, Decidable k.Separate
  | .site _ members => inferInstanceAs (Decidable (Item.Separate members))
  | .macroDecl _ _ body => inferInstanceAs (Decidable (Item.Separate body))
  | .conditional _ chain => inferInstanceAs (Decidable chain.Separate)
  | .block items => inferInstanceAs (Decidable (Item.Separate items))
  | .keyword .. | .expr _ | .parameter _ | .equation _ | .assignment .. => inferInstanceAs (Decidable True)
  | .declaration .. | .existing _ | .siteStatement _ | .directive _ => inferInstanceAs (Decidable True)
  | .bodyOp .. => inferInstanceAs (Decidable True)

instance : DecidablePred fun i : Item => i.kind.Separate := fun i => i.kind.decidableSeparate

instance : DecidablePred Item.AllSeparate := fun is =>
  inferInstanceAs (Decidable (Item.Separate is ∧ Item.AllEverywhere (fun i => i.kind.Separate) is))

end Decidable

end ControlFile
