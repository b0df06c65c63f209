import ControlFile.Expr.Printer
import ControlFile.Item.Basic

/-!
# Writing items

An item is written on one line.  The items of a body are separated by one space, those of a
document by a newline.
-/

namespace ControlFile

def Assignment.render (a : Assignment) : String :=
  "existing_prm " ++ a.refinement.symbol ++ a.name ++ " " ++ a.equation.render

def OccModifier.render (m : OccModifier) : String := m.word.word ++ " " ++ m.value.render

/-- The texts one behind the other, each with a space before it. -/
def spacedAll (texts : List String) : String := String.join (texts.map (" " ++ ·))

def SiteStatement.render : SiteStatement → String
  | .coordinate axis value => axis.word ++ " " ++ value.render
  | .occupancy occ =>
    "occ " ++ occ.atom ++ " " ++ occ.value.render ++ spacedAll (occ.modifiers.map (·.render))
  | .scalar word value => word.word ++ " " ++ value.render
  | .adps values =>
    "adps" ++ spacedAll
      ((Adps.words.toList.zip values.toList).map fun (u, value) => u.word ++ " " ++ value.render)

def Directive.render : Directive → String
  | .define name => "#define " ++ name
  | .undef name => "#undef " ++ name
  | .seed => "#seed"
  | .includeFile path => "#include \"" ++ path ++ "\""
  | .deleteMacros names => "#delete_macros \x7b" ++ spacedAll names ++ " \x7d"
  | .prm name equation => "#prm " ++ name ++ " " ++ equation.render
  | .out expr => "#out " ++ expr.render

def MacroParam.render (p : MacroParam) : String :=
  (if p.byReference then "&" else "") ++ p.name.getD ""

def Signature.render (s : Signature) : String :=
  (if s.byReference then "& " else "") ++ s.name
    ++ (if s.parenthesized then "(" ++ ", ".intercalate (s.params.map (·.render)) ++ ")" else "")

def ArgumentTest.render : ArgumentTest → String
  | .form f => f.word
  | .text t => "\"" ++ t ++ "\""

/-- What the directives of a family start with. -/
def Family.start : Family → String
  | .document => "#"
  | .macroBody => "#m_"

/-- The condition of a branch, with the directive before it; `word` is that of a condition which is
an expression. -/
def Condition.render (family : Family) (word : String) : Condition → String
  | .expr e => family.start ++ word ++ " " ++ e.render ++ ";"
  | .defined symbol false => "#ifdef " ++ symbol
  | .defined symbol true => "#ifndef " ++ symbol
  | .argument param test => "#m_ifarg " ++ param ++ " " ++ test.render

mutual

def Item.render : Item → String
  | ⟨kind, _⟩ => kind.render

def ItemKind.render : ItemKind → String
  | .keyword word equation =>
    word ++ (match equation with
      | some e => " " ++ e.render
      | none => "")
  | .expr expr => expr.render
  | .parameter param => param.render
  | .equation equation => equation.render
  | .assignment name equation => name ++ " " ++ equation.render
  | .declaration scope param => scope.word ++ " " ++ param.render
  | .existing assignment => assignment.render
  | .site name members => "site " ++ name ++ Item.renderSpaced members
  | .siteStatement statement => statement.render
  | .directive directive => directive.render
  | .macroDecl isList signatures body =>
    (if isList then "#list " else "macro ") ++ ", ".intercalate (signatures.map (·.render))
      ++ " \x7b" ++ Item.renderSpaced body ++ " \x7d"
  | .conditional family chain => chain.render family "if"
  | .bodyOp op param => op.word ++ " " ++ param
  | .block items => "\x7b" ++ Item.renderSpaced items ++ " \x7d"

/-- The branches of a conditional; `word` opens the first of them. -/
def Chain.render (family : Family) (word : String) : Chain → String
  | .done => family.start ++ "endif"
  | .otherwise items =>
    family.start ++ "else" ++ Item.renderSpaced items ++ " " ++ family.start ++ "endif"
  | .branch condition items rest =>
    condition.render family word ++ Item.renderSpaced items ++ " " ++ rest.render family "elseif"

/-- The items, each with a space before it. -/
def Item.renderSpaced : List Item → String
  | [] => ""
  | i :: is => " " ++ i.render ++ Item.renderSpaced is

end

/-- The items, one on each line. -/
def renderItems (items : List Item) : String := "\n".intercalate (items.map (·.render))

end ControlFile
