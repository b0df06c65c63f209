import ControlFile.Expr.Eval
import ControlFile.Proofs.Macro.Filling

/-!
# The value of a copy

A copy of an expression has the value that the expression itself has where the parameters are variables, each
with the value of its argument (`Expr.evaluate_substitute`).  If there is no such value, the faults are of one
kind.  Arguments are put into the copy as they are or in parentheses, and neither changes a value.

There is one exception.  In an argument of a call a parameter may stand as the name of a place with a value,
or as an error estimate, and there its own argument has to be a word.  One that is blank when it is written is
no word, and the copy is refused before anything is evaluated.
-/

namespace ControlFile

/-! ### Where names stand -/

/-- How a name stands in an expression: as an operand, as the function of a call, as a place without a value,
or where there has to be a word. -/
inductive Slot
  | operand (name : String)
  | function (name : String)
  | place (name : String)
  | word (name : String)
deriving DecidableEq

def Slot.name : Slot → String
  | .operand n | .function n | .place n | .word n => n

def Uncertainty.slots : Option Uncertainty → List Slot
  | some (.name n) => [.word n]
  | _ => []

/-- The slot of the name of a parameter. -/
def Parameter.nameSlots : Option String → Value → List Slot
  | some n, .absent => [.place n]
  | some n, _ => [.word n]
  | none, _ => []

mutual

/-- The names in an expression, in the order in which they are copied. -/
def Expr.slots : Expr → List Slot
  | .literal _ => []
  | .ident n => [.operand n]
  | .call n arguments _ => Argument.slotsAll arguments ++ [.function n]
  | .unary _ operand => operand.slots
  | .binary _ lhs rhs => lhs.slots ++ rhs.slots
  | .paren inner => inner.slots

def Argument.slotsAll : List Argument → List Slot
  | [] => []
  | a :: as => a.slots ++ Argument.slotsAll as

def Argument.slots : Argument → List Slot
  | .hole => []
  | .expr e => e.slots
  | .parameter p => p.slots
  | .equation e => e.slots

def Parameter.slots : Parameter → List Slot
  | ⟨_, n, value⟩ => Parameter.nameSlots n value ++ value.slots

def Value.slots : Value → List Slot
  | .absent | .literal _ => []
  | .equation e => e.slots

def Equation.slots : Equation → List Slot
  | ⟨_, body, uncertainty⟩ => Uncertainty.slots uncertainty ++ body.slots

end

/-! ### Outcomes -/

/-- The same result, or faults of one kind. -/
inductive SameOutcome {α : Type} : Except Fault α → Except Fault α → Prop
  | result (a : α) : SameOutcome (.ok a) (.ok a)
  | faults {fault fault' : Fault} (h : fault.kind = fault'.kind) : SameOutcome (.error fault) (.error fault')

namespace SameOutcome

variable {α β : Type}

theorem refl (x : Except Fault α) : SameOutcome x x := by
  cases x with
  | ok a => exact .result a
  | error fault => exact .faults rfl

theorem of_eq {x y : Except Fault α} (h : x = y) : SameOutcome x y := h ▸ refl x

theorem bind {x y : Except Fault α} {f g : α → Except Fault β} (h : SameOutcome x y)
    (hfg : ∀ a, SameOutcome (f a) (g a)) : SameOutcome (x >>= f) (y >>= g) := by
  cases h with
  | result a => exact hfg a
  | faults h => exact .faults h

end SameOutcome

namespace Expr

variable {env : String → Option Float} {e : Expr} {value : Float}

theorem checkFinite_of_isFinite (e : Expr) (h : value.isFinite = true) : e.checkFinite value = .ok value :=
  if_pos h

theorem isFinite_of_checkFinite {result : Float} (h : e.checkFinite value = .ok result) :
    result.isFinite = true := by
  unfold checkFinite at h
  split at h
  · rename_i hfinite
    cases h
    exact hfinite
  · cases h

/-- Which expression is named when a value is not finite does not matter for the kind of the fault. -/
theorem sameOutcome_checkFinite (e e' : Expr) (value : Float) :
    SameOutcome (e.checkFinite value) (e'.checkFinite value) := by
  unfold checkFinite
  split
  · exact .result value
  · exact .faults rfl

/-- **A value is finite.** -/
theorem isFinite_of_evaluate (h : e.evaluate env = .ok value) : value.isFinite = true := by
  cases e with
  | literal l =>
    cases l with
    | string text =>
      rw [evaluate] at h
      cases h
    | integer n =>
      rw [evaluate] at h
      exact isFinite_of_checkFinite h
    | decimal x =>
      rw [evaluate] at h
      exact isFinite_of_checkFinite h
  | ident n =>
    rw [evaluate] at h
    split at h
    · exact isFinite_of_checkFinite h
    · cases h
  | call n arguments range =>
    rw [evaluate] at h
    split at h
    · cases h
    · obtain ⟨values, -, h⟩ := exists_of_bind_eq_ok h
      split at h
      · exact isFinite_of_checkFinite h
      · cases h
  | unary op operand =>
    rw [evaluate] at h
    obtain ⟨x, -, h⟩ := exists_of_bind_eq_ok h
    exact isFinite_of_checkFinite h
  | binary op lhs rhs =>
    rw [evaluate] at h
    obtain ⟨x, -, h⟩ := exists_of_bind_eq_ok h
    obtain ⟨y, -, h⟩ := exists_of_bind_eq_ok h
    obtain ⟨z, -, h⟩ := exists_of_bind_eq_ok h
    exact isFinite_of_checkFinite h
  | paren inner =>
    rw [evaluate] at h
    obtain ⟨x, -, h⟩ := exists_of_bind_eq_ok h
    exact isFinite_of_checkFinite h

/-- Parentheses change no value, and no fault. -/
theorem evaluate_paren (e : Expr) : (Expr.paren e).evaluate env = e.evaluate env := by
  rw [evaluate]
  cases h : e.evaluate env with
  | ok value => exact checkFinite_of_isFinite _ (isFinite_of_evaluate h)
  | error fault => rfl

theorem evaluate_parenthesized (h : e.evaluate env = .ok value) : e.parenthesized.evaluate env = .ok value := by
  unfold parenthesized
  split
  · rwa [evaluate_paren]
  · exact h

end Expr

/-! ### Copies -/

namespace Substitution

/-- The arguments are expressions, and `env'` is `env` with their values as the values of the parameters. -/
structure Extends (s : Substitution) (env env' : String → Option Float) : Prop where
  bound : ∀ n a, s.lookup n = some a → ∃ e value, a = .expr e ∧ e.evaluate env = .ok value ∧
    env' n = some value
  other : ∀ n, s.lookup n = none → env' n = env n

/-- The slot is not that of a unique name, nor of a parameter that is called. -/
def Admits (s : Substitution) (x : Slot) : Prop :=
  x.name ≠ uniqueMark ∧ ∀ f, x = .function f → s.lookup f = none

variable {α β : Type} {s : Substitution}

/-- A copy is made, of which `R` holds, or it is refused: a word is asked for at one of the slots, and the
argument is none. -/
inductive Copies (s : Substitution) (xs : List Slot) (R : α → Prop) : Except Fault α → Prop
  | made {a : α} (h : R a) : Copies s xs R (.ok a)
  | refused {n : String} {a : Argument} (hn : .word n ∈ xs) (ha : s.lookup n = some a)
      (hword : a.toWord? = none) : Copies s xs R (.error (.argument (.notAName n)))

namespace Copies

variable {xs ys : List Slot} {R : α → Prop} {R' : β → Prop} {x : Except Fault α}

theorem mono (h : Copies s xs R x) (hsub : ∀ n, .word n ∈ xs → .word n ∈ ys) : Copies s ys R x := by
  cases h with
  | made hR => exact .made hR
  | refused hn ha hword => exact .refused (hsub _ hn) ha hword

theorem bind {f : α → Except Fault β} (h : Copies s xs R x) (hf : ∀ a, R a → Copies s ys R' (f a)) :
    Copies s (xs ++ ys) R' (x >>= f) := by
  cases h with
  | made hR => exact (hf _ hR).mono fun _ => List.mem_append_right xs
  | refused hn ha hword => exact .refused (List.mem_append_left ys hn) ha hword

theorem map {f : α → β} (h : Copies s xs R x) (hf : ∀ a, R a → R' (f a)) :
    Copies s xs R' (x >>= fun a => return f a) := by
  have hreturn : ∀ a, R a → Copies s [] R' (.ok (f a)) := fun a ha => .made (hf a ha)
  have hmap := h.bind hreturn
  rwa [List.append_nil] at hmap

end Copies

/-! ### Names -/

section Names

variable {n : String}

theorem copies_name (h : s.Admits (.word n)) : s.Copies [.word n] (fun _ => True) (s.name n) := by
  have hmark : n ≠ uniqueMark := h.1
  rw [name, if_neg hmark]
  cases ha : s.lookup n with
  | none => exact .made trivial
  | some a =>
    dsimp only
    cases hword : a.toWord? with
    | some word => exact .made trivial
    | none => exact .refused (List.mem_singleton_self _) ha hword

theorem name_of_function (h : s.Admits (.function n)) : s.name n = .ok n := by
  have hmark : n ≠ uniqueMark := h.1
  rw [name, if_neg hmark, h.2 n rfl]

theorem copies_uncertainty {u : Option Uncertainty} (h : ∀ x ∈ Uncertainty.slots u, s.Admits x) :
    s.Copies (Uncertainty.slots u) (fun _ => True) (s.uncertainty u) := by
  match u with
  | none | some (.literal _) => exact .made trivial
  | some (.name n) =>
    have hn : s.Admits (.word n) := h _ (List.mem_singleton_self _)
    rw [uncertainty, Uncertainty.slots]
    split
    · exact .made trivial
    · exact (copies_name hn).map fun _ _ => trivial
    · exact .made trivial

/-- The name of a parameter that is not taken from its argument as a whole. -/
theorem copies_name? {refinement : Refinement} {o : Option String} {value : Value}
    (h : ∀ x ∈ Parameter.nameSlots o value, s.Admits x) (hwhole : s.wholeParameter? refinement o value = none) :
    s.Copies (Parameter.nameSlots o value) (fun _ => True) (s.name? o) := by
  cases o with
  | none => exact .made trivial
  | some n =>
    refine .map (R := fun _ => True) ?_ fun _ _ => trivial
    cases value with
    | absent =>
      have hmark : n ≠ uniqueMark := (h (.place n) (List.mem_singleton_self _)).1
      have hlookup : s.lookup n = none := Option.map_eq_none_iff.1 hwhole
      rw [name, if_neg hmark, hlookup]
      exact .made trivial
    | _ => exact copies_name (h (.word n) (List.mem_singleton_self _))

end Names

end Substitution

section Evaluation

variable {s : Substitution} {env env' : String → Option Float}

namespace Substitution.Extends

/-- A parameter has the value of its argument. -/
theorem evaluate_ident (hs : s.Extends env env') {n : String} {a : Argument} (h : s.lookup n = some a) :
    ∃ e value, a = .expr e ∧ e.evaluate env = .ok value ∧ (Expr.ident n).evaluate env' = .ok value := by
  obtain ⟨e, value, rfl, hvalue, henv⟩ := hs.bound n a h
  refine ⟨e, value, rfl, hvalue, ?_⟩
  rw [Expr.evaluate, henv]
  exact Expr.checkFinite_of_isFinite _ (Expr.isFinite_of_evaluate hvalue)

theorem copies_ident (hs : s.Extends env env') {n : String} (h : s.Admits (.operand n)) :
    s.Copies [.operand n] (fun c => SameOutcome (c.evaluate env) ((Expr.ident n).evaluate env')) (s.ident n) := by
  have hmark : n ≠ uniqueMark := h.1
  rw [ident, if_neg hmark]
  cases ha : s.lookup n with
  | none =>
    refine .made (.of_eq ?_)
    rw [Expr.evaluate, Expr.evaluate, hs.other n ha]
  | some a =>
    obtain ⟨e, value, rfl, hvalue, hident⟩ := hs.evaluate_ident ha
    refine .made (.of_eq ?_)
    rw [Expr.evaluate_parenthesized hvalue, hident]

/-- An argument that is passed on as a whole has its value too. -/
theorem sameOutcome_passed (hs : s.Extends env env') {e : Expr} {a : Argument}
    (h : s.passedThrough? e = some a) (f : String) :
    SameOutcome (a.evaluate env f) ((Argument.expr e).evaluate env' f) := by
  cases e with
  | ident n =>
    obtain ⟨e, value, rfl, hvalue, hident⟩ := hs.evaluate_ident h
    rw [Argument.evaluate, Argument.evaluate, hvalue, hident]
    exact .result value
  | _ => cases h

end Substitution.Extends

mutual

/-- A copy of an expression has its value. -/
theorem Expr.copies_substitute (hs : s.Extends env env') : (e : Expr) → (∀ x ∈ e.slots, s.Admits x) →
    s.Copies e.slots (fun c => SameOutcome (c.evaluate env) (e.evaluate env')) (e.substitute s)
  | .literal value, _ => by
    rw [Expr.substitute]
    refine .made (.of_eq ?_)
    cases value <;> rfl
  | .ident n, h => by
    rw [Expr.substitute]
    exact hs.copies_ident (h _ (List.mem_singleton_self _))
  | .call n arguments range, h => by
    rw [Expr.slots] at h ⊢
    obtain ⟨harguments, hname⟩ := List.forall_mem_append.1 h
    rw [Expr.substitute, Substitution.name_of_function (hname _ (List.mem_singleton_self _))]
    refine (Argument.copies_substituteAll hs arguments harguments).bind fun as has => .made ?_
    rw [Expr.evaluate, Expr.evaluate]
    cases Function.ofName? n with
    | none => exact .refl _
    | some f =>
      refine (has n).bind fun values => ?_
      cases f.onValues? values with
      | some value => exact Expr.sameOutcome_checkFinite _ _ _
      | none => exact .refl _
  | .unary op operand, h => by
    rw [Expr.slots] at h ⊢
    rw [Expr.substitute]
    refine (Expr.copies_substitute hs operand h).map fun c hc => ?_
    rw [Expr.evaluate, Expr.evaluate]
    exact hc.bind fun x => Expr.sameOutcome_checkFinite _ _ _
  | .binary op lhs rhs, h => by
    rw [Expr.slots] at h ⊢
    obtain ⟨hlhs, hrhs⟩ := List.forall_mem_append.1 h
    rw [Expr.substitute]
    refine (Expr.copies_substitute hs lhs hlhs).bind fun l hl => ?_
    refine (Expr.copies_substitute hs rhs hrhs).map fun r hr => ?_
    rw [Expr.evaluate, Expr.evaluate]
    refine hl.bind fun x => ?_
    refine hr.bind fun y => ?_
    refine (SameOutcome.refl _).bind fun z => ?_
    exact Expr.sameOutcome_checkFinite _ _ _
  | .paren inner, h => by
    rw [Expr.slots] at h ⊢
    rw [Expr.substitute]
    refine (Expr.copies_substitute hs inner h).map fun c hc => ?_
    rw [Expr.evaluate, Expr.evaluate]
    exact hc.bind fun x => Expr.sameOutcome_checkFinite _ _ _

/-- Copies of the arguments of a function have their values. -/
theorem Argument.copies_substituteAll (hs : s.Extends env env') : (as : List Argument) →
    (∀ x ∈ Argument.slotsAll as, s.Admits x) → s.Copies (Argument.slotsAll as)
      (fun bs => ∀ f, SameOutcome (Argument.evaluateAll env f bs) (Argument.evaluateAll env' f as))
      (Argument.substituteAll s as)
  | [], _ => .made fun _ => .refl _
  | a :: as, h => by
    rw [Argument.slotsAll] at h ⊢
    obtain ⟨ha, has⟩ := List.forall_mem_append.1 h
    rw [Argument.substituteAll]
    refine (Argument.copies_substitute hs a ha).bind fun b hb => ?_
    refine (Argument.copies_substituteAll hs as has).map fun bs hbs f => ?_
    rw [Argument.evaluateAll, Argument.evaluateAll]
    exact (hb f).bind fun x => (hbs f).bind fun xs => .refl _

/-- A copy of an argument of a function has its value.  What is no expression stays so. -/
theorem Argument.copies_substitute (hs : s.Extends env env') : (a : Argument) → (∀ x ∈ a.slots, s.Admits x) →
    s.Copies a.slots (fun b => ∀ f, SameOutcome (b.evaluate env f) (a.evaluate env' f)) (a.substitute s)
  | .hole, _ => .made fun _ => .refl _
  | .expr e, h => by
    rw [Argument.slots] at h ⊢
    rw [Argument.substitute]
    cases hpassed : s.passedThrough? e with
    | some a => exact .made (hs.sameOutcome_passed hpassed)
    | none => exact (Expr.copies_substitute hs e h).map fun c hc f => hc
  | .parameter p, h => by
    rw [Argument.slots] at h ⊢
    rw [Argument.substitute]
    exact (Parameter.copies_substitute hs p h).map fun q _ f => .faults rfl
  | .equation e, h => by
    rw [Argument.slots] at h ⊢
    rw [Argument.substitute]
    exact (Equation.copies_substitute hs e h).map fun q _ f => .faults rfl

theorem Parameter.copies_substitute (hs : s.Extends env env') : (p : Parameter) →
    (∀ x ∈ p.slots, s.Admits x) → s.Copies p.slots (fun _ => True) (p.substitute s)
  | ⟨refinement, n, value⟩, h => by
    rw [Parameter.slots] at h ⊢
    obtain ⟨hname, hvalue⟩ := List.forall_mem_append.1 h
    rw [Parameter.substitute]
    cases hwhole : s.wholeParameter? refinement n value with
    | some p => exact .made trivial
    | none =>
      refine (Substitution.copies_name? hname hwhole).bind fun _ _ => ?_
      exact (Value.copies_substitute hs value hvalue).map fun _ _ => trivial

theorem Value.copies_substitute (hs : s.Extends env env') : (w : Value) → (∀ x ∈ w.slots, s.Admits x) →
    s.Copies w.slots (fun _ => True) (w.substitute s)
  | .absent, _ => .made trivial
  | .literal _, _ => .made trivial
  | .equation e, h => by
    rw [Value.slots] at h ⊢
    rw [Value.substitute]
    exact (Equation.copies_substitute hs e h).map fun _ _ => trivial

theorem Equation.copies_substitute (hs : s.Extends env env') : (e : Equation) → (∀ x ∈ e.slots, s.Admits x) →
    s.Copies e.slots (fun _ => True) (e.substitute s)
  | ⟨op, body, u⟩, h => by
    rw [Equation.slots] at h ⊢
    obtain ⟨hu, hbody⟩ := List.forall_mem_append.1 h
    rw [Equation.substitute]
    refine (Substitution.copies_uncertainty hu).bind fun _ _ => ?_
    exact (Expr.copies_substitute hs body hbody).map fun _ _ => trivial

end

/-- **A copy has the value of the expression** with the values of the arguments as those of the parameters,
or a fault of the same kind; or it is refused, since the argument of a parameter that stands for a word is
blank. -/
theorem Expr.evaluate_substitute (hs : s.Extends env env') (body : Expr)
    (hmark : ∀ x ∈ body.slots, x.name ≠ uniqueMark) (hcalls : ∀ f, .function f ∈ body.slots → s.lookup f = none) :
    (∃ copy, body.substitute s = .ok copy ∧ SameOutcome (copy.evaluate env) (body.evaluate env')) ∨
      ∃ n a, .word n ∈ body.slots ∧ s.lookup n = some a ∧ a.toWord? = none ∧
        body.substitute s = .error (.argument (.notAName n)) := by
  have hadmits : ∀ x ∈ body.slots, s.Admits x := fun x hx => ⟨hmark x hx, fun f hf => hcalls f (hf ▸ hx)⟩
  have hcopy := body.copies_substitute hs hadmits
  generalize body.substitute s = copied at hcopy ⊢
  cases hcopy with
  | made h => exact .inl ⟨_, rfl, h⟩
  | refused hn ha hword => exact .inr ⟨_, _, hn, ha, hword, rfl⟩

end Evaluation

/-! ### Arguments with the names of parameters -/

/-- `a` stands for `b + 1`, and `b` for `a`. -/
def swapping : Substitution :=
  ⟨[("a", .expr (.binary .add (.ident "b") (.literal (.integer 1)))), ("b", .expr (.ident "a"))], "_unique_1"⟩

/-- Two variables. -/
def twoValues (x y : Float) (n : String) : Option Float :=
  if n = "a" then some x else if n = "b" then some y else none

theorem extends_swapping : swapping.Extends (twoValues 2 3) (twoValues 4 2) where
  bound n a h := by
    by_cases ha : n = "a"
    · subst ha
      cases h
      exact ⟨_, 4, rfl, rfl, rfl⟩
    · by_cases hb : n = "b"
      · subst hb
        cases h
        exact ⟨_, 2, rfl, rfl, rfl⟩
      · have hnone : swapping.lookup n = none :=
          (if_neg (Ne.symm ha)).trans (if_neg (Ne.symm hb))
        rw [hnone] at h
        cases h
  other n h := by
    have ha : n ≠ "a" := by
      rintro rfl
      cases h
    have hb : n ≠ "b" := by
      rintro rfl
      cases h
    rw [twoValues, twoValues, if_neg ha, if_neg ha, if_neg hb, if_neg hb]

/-- In `Max(a, b * 3) - a * b` both parameters are replaced at once. -/
theorem Expr.evaluate_substitute_swapping :
    let product : Expr := .binary .mul (.ident "b") (.literal (.integer 3))
    let greatest : Expr := .call "Max" [.expr (.ident "a"), .expr product] ⟨0, 13⟩
    let body : Expr := .binary .sub greatest (.binary .mul (.ident "a") (.ident "b"))
    swapping.Extends (twoValues 2 3) (twoValues 4 2) ∧ (∀ x ∈ body.slots, x.name ≠ uniqueMark) ∧
      (∀ f, .function f ∈ body.slots → swapping.lookup f = none) ∧
      ((∃ copy, body.substitute swapping = .ok copy ∧
          SameOutcome (copy.evaluate (twoValues 2 3)) (body.evaluate (twoValues 4 2))) ∨
        ∃ n a, .word n ∈ body.slots ∧ swapping.lookup n = some a ∧ a.toWord? = none ∧
          body.substitute swapping = .error (.argument (.notAName n))) := by
  intro product greatest body
  have hslots : body.slots =
      [.operand "a", .operand "b", .function "Max", .operand "a", .operand "b"] := rfl
  have hmark : ∀ x ∈ body.slots, x.name ≠ uniqueMark := by
    rw [hslots]
    decide
  have hcalls : ∀ f, .function f ∈ body.slots → swapping.lookup f = none := by
    intro f hf
    obtain rfl : f = "Max" := by simpa [hslots] using hf
    rfl
  exact ⟨extends_swapping, hmark, hcalls, Expr.evaluate_substitute extends_swapping body hmark hcalls⟩

/-! ### Arguments that are no words -/

/-- The product of a variable without a name with itself, which is blank where it is written. -/
def blankProduct : Expr := .binary .juxtaposed (.ident "") (.ident "")

/-- A variable without a name. -/
def unnamedValue (n : String) : Option Float := if n = "" then some 2 else none

/-- `a` stands for the blank product. -/
def blanking : Substitution := ⟨[("a", .expr blankProduct)], "_unique_1"⟩

theorem evaluate_blankProduct : blankProduct.evaluate unnamedValue = .ok 4.0 := by rfl

theorem extends_blanking : blanking.Extends unnamedValue fun n => if n = "a" then some 4.0 else unnamedValue n where
  bound n a h := by
    by_cases ha : n = "a"
    · subst ha
      cases h
      exact ⟨_, 4.0, rfl, evaluate_blankProduct, rfl⟩
    · have hnone : blanking.lookup n = none := if_neg (Ne.symm ha)
      rw [hnone] at h
      cases h
  other n h := by
    have ha : n ≠ "a" := by
      rintro rfl
      cases h
    exact if_neg ha

/-- In `Abs(@ a 1)` the name of the place has to be a word.  The copy is refused for that, and the expression
itself for what the function is called with. -/
theorem Expr.not_sameOutcome_substitute : ¬∀ (s : Substitution) (env env' : String → Option Float),
    s.Extends env env' → ∀ body : Expr, (∀ x ∈ body.slots, x.name ≠ uniqueMark) →
      (∀ f, .function f ∈ body.slots → s.lookup f = none) →
        SameOutcome (body.substitute s >>= fun copy => copy.evaluate env) (body.evaluate env') := by
  intro h
  let place : Parameter := ⟨.refined, some "a", .literal (.integer 1)⟩
  let body : Expr := .call "Abs" [.parameter place] ⟨0, 10⟩
  have hslots : body.slots = [.word "a", .function "Abs"] := rfl
  have hsame := h blanking _ _ extends_blanking body (by rw [hslots]; decide) fun f hf => by
    obtain rfl : f = "Abs" := by simpa [hslots] using hf
    rfl
  have hword : (Argument.expr blankProduct).toWord? = none := by decide +kernel
  have hlookup : blanking.lookup "a" = some (.expr blankProduct) := rfl
  have hname : blanking.name "a" = .error (.argument (.notAName "a")) := by
    rw [Substitution.name, if_neg (by decide), hlookup]
    dsimp only
    rw [hword]
  have hcopy : body.substitute blanking = .error (.argument (.notAName "a")) := by
    simp only [body, place, Expr.substitute, Argument.substituteAll, Argument.substitute, Parameter.substitute,
      Substitution.wholeParameter?, Substitution.name?, hname]
    rfl
  have hvalue : body.evaluate (fun n => if n = "a" then some 4.0 else unnamedValue n) =
      .error (.value (.notAnExpression "@ a 1" "Abs")) := rfl
  rw [hcopy, hvalue] at hsame
  cases hsame with
  | faults hkind => cases hkind

end ControlFile
