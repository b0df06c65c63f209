import ControlFile.Proofs.Expansion.Obedience
import ControlFile.Proofs.Item.Alone
import ControlFile.Proofs.Item.Written
import ControlFile.Proofs.Macro.Clear

/-!
# Equations keep their meaning

All operations of a document are grouped as the grammar says, whatever the macros put together
(`Session.parse_grouped`): an argument in the place of an operand stands in parentheses if it is an
operation.  So an equation is written as a text that has the same value, as long as the names, strings
and numbers in it are written clearly (`Session.parse_equations_readAgain`).

A number with a minus is put in the place of an operand without parentheses.  With `-2` for `a` the
equation `= -a;` becomes `= --2;`, and that cannot be read (`Session.not_readAgain_of_isOk`).
-/

namespace ControlFile

/-- The equation that the item is. -/
def ItemKind.equation? : ItemKind → Option Equation
  | .equation e => some e
  | _ => none

theorem ItemKind.eq_of_equation? {k : ItemKind} {e : Equation} (h : e ∈ k.equation?) : k = .equation e := by
  cases k <;> cases h
  rfl

/-- The text is read without errors, as one equation.  Its body has the value of `body`, whatever the
names stand for. -/
def IsEquationOf (v : Vocabulary) (body : Expr) (text : String) : Prop :=
  (Parsed.ofText v text).isOk = true ∧ ∃ f range,
    (Parsed.ofText v text).items = [⟨.equation f, range⟩] ∧ ∀ env, f.body.evaluate env = body.evaluate env

/-- **A clear equation whose operations are grouped keeps its meaning** where it is written. -/
theorem Equation.isEquationOf_render {v : Vocabulary} {e : Equation} {passed : Prop}
    (hgrouped : e.Meets (.ofOperations Expr.IsGrouped) passed) (hclear : e.Clear v)
    (hnesting : e.nesting < maxNesting) : IsEquationOf v e.body e.render := by
  obtain ⟨op, body, uncertainty⟩ := e
  have hwritten := (Equation.render_reread ⟨op, body, uncertainty⟩ hclear).1
  obtain ⟨hok, ⟨op', body', uncertainty'⟩, range, hitems, hbare⟩ := Parsed.ofText_equation
    (Equation.grammatical_asWritten _ hgrouped hclear) ((Equation.nesting_asWritten _).trans_lt hnesting)
  rw [hwritten] at hok hitems
  have hbody : body'.bare = body.reread false := congrArg Equation.body hbare
  refine ⟨hok, _, range, hitems, fun env => ?_⟩
  calc body'.evaluate env = body'.bare.evaluate env := (body'.agrees_bare.evaluate env).symm
    _ = (body.reread false).evaluate env := by rw [hbody]
    _ = body.evaluate env := (body.agrees_reread hclear.1).2.evaluate env

/-! ### Documents -/

/-- What is read from a text is grouped, also where something cannot be read. -/
theorem Parsed.items_grouped (v : Vocabulary) (source : String) :
    Expansion.AllMeet (.ofOperations Expr.IsGrouped) (ofText v source).items :=
  items_written v source (fun _ _ _ => trivial) (fun _ _ _ => trivial) trivial (fun _ => trivial)
    (fun _ => trivial) fun _ _ _ h => h.isGrouped

/-- **All operations of a document are grouped.** -/
theorem Session.parse_grouped (s : Session) (text : String) :
    Expansion.AllMeet (.ofOperations Expr.IsGrouped) (s.parse text).items :=
  s.parse_meets text Demands.numbered_isGrouped fun source _ => Parsed.items_grouped s.vocabulary source

/-- **The equations of a document are read again** where they are written, and their values are the same.
This takes equations that are clear and not nested too deep. -/
theorem Session.parse_equations_readAgain (s : Session) (text : String) :
    ∀ i ∈ (s.parse text).items, i.Everywhere fun j => ∀ e ∈ j.kind.equation?,
      e.Clear s.vocabulary → e.nesting < maxNesting → IsEquationOf s.vocabulary e.body j.render := by
  intro i hi
  refine i.everywhere_of_all (P := fun (_ : Unit) => Item.Meets (.ofOperations Expr.IsGrouped))
    (fun j hj e he hclear hnesting => ?_) fun _ => s.parse_grouped text i hi
  obtain ⟨kind, range⟩ := j
  obtain rfl : kind = .equation e := ItemKind.eq_of_equation? he
  exact Equation.isEquationOf_render (hj ()) hclear hnesting

/-- Sums and numbers with a minus in the place of bases, exponents and factors. -/
theorem Session.parse_equations_readAgain_power :
    let text := "macro m(a, n) \x7b = a ^ n ^ 2 - Max(n a, a); : n \x7d m(x + 1, -2)"
    let items := (Session.standard.parse text).items
    (Session.standard.parse text).isOk = true ∧
      (items.filterMap (·.kind.equation?)).map Equation.render =
        ["= (x + 1) ^ -2 ^ 2 - Max(-2 (x + 1), x + 1); : -2"] ∧
      (∀ i ∈ items, ∀ e ∈ i.kind.equation?, e.Clear .standard ∧ e.nesting < maxNesting) ∧
      ∀ i ∈ items, ∀ e ∈ i.kind.equation?, IsEquationOf .standard e.body i.render := by
  intro text items
  have hclear : ∀ i ∈ items, ∀ e ∈ i.kind.equation?, e.Clear .standard ∧ e.nesting < maxNesting := by
    decide +kernel
  exact ⟨by decide +kernel, by decide +kernel, hclear, fun i hi e he =>
    (Session.standard.parse_equations_readAgain text i hi).self e he (hclear i hi e he).1
      (hclear i hi e he).2⟩

/-- A number with a minus is put behind a sign, and the two signs cannot be read. -/
theorem Session.not_readAgain_of_isOk :
    ¬∀ (s : Session) (text : String), (s.parse text).isOk = true →
      ∀ i ∈ (s.parse text).items, ∀ e ∈ i.kind.equation?,
        (Parsed.ofText s.vocabulary i.render).isOk = true ∧
          ∃ f, (Parsed.ofText s.vocabulary i.render).items.filterMap (·.kind.equation?) = [f] ∧
            ∀ env, f.body.evaluate env = e.body.evaluate env := by
  intro h
  let text := "macro m(a) \x7b = -a; \x7d m(-2)"
  have hread := h .standard text (by decide +kernel)
  have hok : ∀ i ∈ (Session.standard.parse text).items, ∀ e ∈ i.kind.equation?,
      (Parsed.ofText Session.standard.vocabulary i.render).isOk = true :=
    fun i hi e he => (hread i hi e he).1
  exact absurd hok (by decide +kernel)

end ControlFile
