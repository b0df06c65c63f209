import ControlFile.Proofs.Expr.Agreement
import ControlFile.Proofs.Expr.Reading
import ControlFile.Proofs.Macro.Words

/-!
# Clear expressions

An argument that is put in the place of an operand is put in parentheses if it is an operation, so all
operations in a copy are *grouped* as the grammar says (`Expr.IsGrouped`).  That alone does not make a
copy legible.  A number with a minus is no operation and gets no parentheses, nor does a string; and a
name may be made of any text.

An expression is *clear* if nothing of the kind is in it (`Expr.Clear`).  Then it is written as an
expression that is built as the grammar groups it (`Expr.grammatical_asWritten`), and what is read from
there has the same value (`Expr.agrees_reread`).
-/

namespace ControlFile

/-! ### Grouped operations -/

/-- The operands bind tightly enough, where numbers with a minus are taken for numbers like all others. -/
def BinaryOp.Binds (op : BinaryOp) (lhs rhs : Expr) : Prop :=
  match op with
  | .pow => 5 ≤ lhs.grip ∧ rhs.isLooseExponent = true
  | .juxtaposed => 3 ≤ lhs.grip ∧ 5 ≤ rhs.grip
  | op => op.level ≤ lhs.grip ∧ op.level < rhs.grip

/-- If the expression is an operation, its operands bind tightly enough. -/
def Expr.IsGrouped : Expr → Prop
  | .unary _ operand => 5 ≤ operand.grip
  | .binary op lhs rhs => op.Binds lhs rhs
  | _ => True

namespace Expr

/-- A number that is written with a minus. -/
def isNegativeNumber : Expr → Bool
  | .literal value => value.isNegative
  | _ => false

/-- Only a number with a minus holds together less tightly than other numbers. -/
theorem rank_eq (e : Expr) : e.rank = if e.isNegativeNumber then 4 else e.grip := by
  cases e <;> rfl

theorem rank_le_grip (e : Expr) : e.rank ≤ e.grip := by
  rw [rank_eq]
  split
  · cases e with
    | literal value => exact (by decide : 4 ≤ 6)
    | _ => contradiction
  · exact Nat.le_refl _

theorem isLooseExponent_of_isExponent {e : Expr} (h : e.isExponent = true) : e.isLooseExponent = true := by
  have hsix : ∀ e : Expr, e.rank = 6 → e.grip = 6 := fun e h =>
    Nat.le_antisymm e.grip_le (h ▸ e.rank_le_grip)
  cases e with
  | unary op operand => simpa [isLooseExponent] using hsix operand (by simpa [isExponent] using h)
  | literal value => rfl
  | _ => simpa [isLooseExponent] using hsix _ (by simpa [isExponent] using h)

/-- What is read is grouped. -/
theorem Grammatical.isGrouped {v : Vocabulary} {j : Bool} {e : Expr} (h : e.Grammatical v j) :
    e.IsGrouped := by
  cases e with
  | unary op operand => exact Nat.le_trans h.1 operand.rank_le_grip
  | binary op l r =>
    have hl := l.rank_le_grip
    have hr := r.rank_le_grip
    have hgroups := h.1
    cases op with
    | pow => exact ⟨Nat.le_trans hgroups.1 hl, isLooseExponent_of_isExponent hgroups.2.2⟩
    | juxtaposed => exact ⟨Nat.le_trans hgroups.2.1 hl, Nat.le_trans hgroups.2.2.1 hr⟩
    | _ => exact ⟨Nat.le_trans hgroups.1 hl, Nat.lt_of_lt_of_le hgroups.2 hr⟩
  | _ => trivial

end Expr

theorem BinaryOp.Binds.leads {op : BinaryOp} {l l' r r' : Expr} (hl : l.Leads l') (hr : r.Leads r')
    (h : op.Binds l r) : op.Binds l' r' := by
  cases op with
  | pow => exact ⟨Nat.le_trans h.1 hl.grip, hr.exponent h.2⟩
  | juxtaposed => exact ⟨Nat.le_trans h.1 hl.grip, Nat.le_trans h.2 hr.grip⟩
  | _ => exact ⟨Nat.le_trans h.1 hl.grip, Nat.lt_of_lt_of_le h.2 hr.grip⟩

/-- **Copies of what is grouped are grouped.**  No operation is made of a word. -/
theorem Demands.numbered_isGrouped : Demands.Numbered fun _ => .ofOperations Expr.IsGrouped where
  closed _ := by
    refine ⟨fun _ _ => trivial, fun h hop => Nat.le_trans hop h.grip, fun hl hr => .leads hl hr,
      fun _ _ _ _ => trivial, fun a k _ hk => ?_, trivial⟩
    obtain ⟨word, -, rfl⟩ := Option.map_eq_some_iff.1 hk
    rcases ItemKind.ofWord_cases word with
      ⟨mark, -, h⟩ | ⟨value, h, -⟩ | ⟨cs, -, h⟩ | h <;> rw [h]
    · exact ⟨by simp, trivial⟩
    · intro _
      cases value <;> trivial
    · exact fun _ => trivial
    · trivial
  unique _ := trivial
  mono _ _ _ := ⟨fun _ _ _ => trivial, fun _ _ _ => trivial, fun _ _ _ => trivial, fun _ h _ => h,
    fun _ => (and_self_iff).symm⟩

/-! ### Clear expressions -/

/-- The sign is not followed by a minus, and it is not the sign of the whole number zero. -/
def UnaryOp.Shows (followed : Bool) (op : UnaryOp) (operand : Expr) : Prop :=
  operand.isNegativeNumber = false ∧
    ∀ value ∈ op.foldedLiteral? followed operand, value.isIntegerZero = false

/-- A number with a minus is not a base, and neither it nor a string follows as a factor. -/
def BinaryOp.Shows (op : BinaryOp) (lhs rhs : Expr) : Prop :=
  match op with
  | .pow => lhs.isNegativeNumber = false
  | .juxtaposed => rhs.isNegativeNumber = false ∧ rhs.startsFactor = true
  | _ => True

mutual

/-- The writing shows what the expression is.  `followed` says that a power sign follows: then a minus
before the last number is a sign, and the number alone has to be within the limits.  An argument that is
left out is written as no argument, which makes a difference to functions only. -/
def Expr.Clear (v : Vocabulary) (followed : Bool) : Expr → Prop
  | .literal value => value.Legible ∧ (followed = true → value.negated.Legible)
  | .ident name => IsNameOrMark name
  | .call name arguments _ =>
    IsName name ∧ (Argument.IsHoleOnly arguments → Function.ofName? name = none) ∧
      Argument.AllClear v arguments
  | .unary op operand => op.Shows followed operand ∧ operand.Clear v followed
  | .binary op lhs rhs => op.Shows lhs rhs ∧ lhs.Clear v (op == .pow) ∧ rhs.Clear v followed
  | .paren inner => inner.Clear v false

def Argument.AllClear (v : Vocabulary) : List Argument → Prop
  | [] => True
  | a :: as => a.Clear v ∧ Argument.AllClear v as

def Argument.Clear (v : Vocabulary) : Argument → Prop
  | .hole => True
  | .parameter param => param.IsMarked v
  | .expr expr => expr.Clear v false
  | .equation equation => equation.Clear v

def Equation.Clear (v : Vocabulary) : Equation → Prop
  | ⟨_, body, uncertainty⟩ => body.Clear v false ∧ ∀ u ∈ uncertainty, u.Legible

end

/-! ### Deciding what is clear -/

/-- Whether the characters are one token of the given kind. -/
def Lexer.isToken (kind : TokenKind) : List Char → Bool
  | [] => false
  | c :: cs => first c cs == (kind, cs.length)

instance (kind : TokenKind) (text : String) : Decidable (LexesAs kind text) :=
  decidable_of_iff (Lexer.isToken kind text.toList = true) (by
    unfold LexesAs
    cases text.toList <;> simp [Lexer.isToken])

instance (name : String) : Decidable (IsName name) := inferInstanceAs (Decidable (LexesAs .ident name))

instance (name : String) : Decidable (IsNameOrMark name) :=
  inferInstanceAs (Decidable (name = uniqueMark ∨ IsName name))

instance : (u : Uncertainty) → Decidable u.Legible
  | .literal value => inferInstanceAs (Decidable (value.Legible ∧ value.isNumber = true))
  | .name n => inferInstanceAs (Decidable (IsName n))

instance : (value : Value) → Decidable value.IsPlain
  | .absent => inferInstanceAs (Decidable True)
  | .literal value => inferInstanceAs (Decidable value.Legible)
  | .equation _ => inferInstanceAs (Decidable False)

instance (v : Vocabulary) : (name : Option String) → Decidable (IsParameterName v name)
  | none => inferInstanceAs (Decidable True)
  | some n => inferInstanceAs (Decidable (n = uniqueMark ∨ IsName n ∧ v.isReserved n = false))

instance (v : Vocabulary) (p : Parameter) : Decidable (p.IsMarked v) :=
  inferInstanceAs (Decidable (p.refinement ≠ .plain ∧ IsParameterName v p.name ∧ p.value.IsPlain))

instance : (as : List Argument) → Decidable (Argument.IsHoleOnly as)
  | [.hole] => isTrue trivial
  | [] | [.parameter _] | [.expr _] | [.equation _] => isFalse id
  | a :: _ :: _ => isFalse (by cases a <;> exact id)

instance (followed : Bool) (op : UnaryOp) (operand : Expr) : Decidable (op.Shows followed operand) :=
  inferInstanceAs (Decidable (_ ∧ ∀ value ∈ op.foldedLiteral? followed operand, _))

instance : (op : BinaryOp) → (lhs rhs : Expr) → Decidable (op.Shows lhs rhs)
  | .pow, lhs, _ => inferInstanceAs (Decidable (lhs.isNegativeNumber = false))
  | .juxtaposed, _, rhs =>
    inferInstanceAs (Decidable (rhs.isNegativeNumber = false ∧ rhs.startsFactor = true))
  | .eq, _, _ | .lt, _, _ | .gt, _, _ | .le, _, _ | .ge, _, _ | .add, _, _ | .sub, _, _ | .mul, _, _
  | .div, _, _ | .rem, _, _ => inferInstanceAs (Decidable True)

mutual

instance Expr.decidableClear (v : Vocabulary) :
    ∀ (followed : Bool) (e : Expr), Decidable (e.Clear v followed)
  | followed, .literal value =>
    inferInstanceAs (Decidable (value.Legible ∧ (followed = true → value.negated.Legible)))
  | _, .ident name => inferInstanceAs (Decidable (IsNameOrMark name))
  | _, .call name as _ =>
    have := Argument.decidableAllClear v as
    inferInstanceAs (Decidable (IsName name ∧
      (Argument.IsHoleOnly as → Function.ofName? name = none) ∧ Argument.AllClear v as))
  | followed, .unary op operand =>
    have := Expr.decidableClear v followed operand
    inferInstanceAs (Decidable (op.Shows followed operand ∧ operand.Clear v followed))
  | followed, .binary op lhs rhs =>
    have := Expr.decidableClear v (op == .pow) lhs
    have := Expr.decidableClear v followed rhs
    inferInstanceAs (Decidable
      (op.Shows lhs rhs ∧ lhs.Clear v (op == .pow) ∧ rhs.Clear v followed))
  | _, .paren inner => Expr.decidableClear v false inner

instance Argument.decidableAllClear (v : Vocabulary) :
    ∀ as : List Argument, Decidable (Argument.AllClear v as)
  | [] => inferInstanceAs (Decidable True)
  | a :: as =>
    have := Argument.decidableClear v a
    have := Argument.decidableAllClear v as
    inferInstanceAs (Decidable (a.Clear v ∧ Argument.AllClear v as))

instance Argument.decidableClear (v : Vocabulary) : ∀ a : Argument, Decidable (a.Clear v)
  | .hole => inferInstanceAs (Decidable True)
  | .parameter p => inferInstanceAs (Decidable (p.IsMarked v))
  | .expr e => Expr.decidableClear v false e
  | .equation e => Equation.decidableClear v e

instance Equation.decidableClear (v : Vocabulary) : ∀ e : Equation, Decidable (e.Clear v)
  | ⟨_, body, uncertainty⟩ =>
    have := Expr.decidableClear v false body
    inferInstanceAs (Decidable (body.Clear v false ∧ ∀ u ∈ uncertainty, u.Legible))

end

/-! ### The expression that is written -/

/-- One argument that is left out is none. -/
def Argument.dropHole : List Argument → List Argument
  | [.hole] => []
  | as => as

mutual

/-- The expression that is written in the place of a clear one: a minus before the last number is a sign
if a power sign follows. -/
def Expr.asWritten (followed : Bool) : Expr → Expr
  | .literal value =>
    if followed && value.isNegative then .unary .minus (.literal value.negated) else .literal value
  | .ident name => .ident name
  | .call name arguments range =>
    .call name (Argument.dropHole (Argument.allAsWritten arguments)) range
  | .unary op operand => .unary op (operand.asWritten followed)
  | .binary op lhs rhs => .binary op (lhs.asWritten (op == .pow)) (rhs.asWritten followed)
  | .paren inner => .paren (inner.asWritten false)

def Argument.allAsWritten : List Argument → List Argument
  | [] => []
  | a :: as => a.asWritten :: Argument.allAsWritten as

def Argument.asWritten : Argument → Argument
  | .hole => .hole
  | .parameter param => .parameter param
  | .expr expr => .expr (expr.asWritten false)
  | .equation equation => .equation equation.asWritten

def Equation.asWritten : Equation → Equation
  | ⟨op, body, uncertainty⟩ => ⟨op, body.asWritten false, uncertainty⟩

end

/-! ### How tightly it holds together -/

namespace Expr

theorem asWritten_literal {followed : Bool} {value : Literal}
    (h : (followed && value.isNegative) = false) :
    (Expr.literal value).asWritten followed = .literal value := by
  rw [asWritten, h, if_neg Bool.false_ne_true]

theorem asWritten_negative {value : Literal} (h : value.isNegative = true) :
    (Expr.literal value).asWritten true = .unary .minus (.literal value.negated) := by
  rw [asWritten, h, Bool.and_true, if_pos rfl]

theorem rank_asWritten (e : Expr) (followed : Bool) : (e.asWritten followed).rank = e.rank := by
  cases e with
  | literal value =>
    cases h : followed && value.isNegative with
    | false => rw [asWritten_literal h]
    | true =>
      obtain ⟨rfl, hneg⟩ := (Bool.and_eq_true _ _).mp h
      rw [asWritten_negative hneg, rank, rank, hneg, if_pos rfl]
  | _ => rfl

theorem isNegativeNumber_asWritten (e : Expr) : (e.asWritten true).isNegativeNumber = false := by
  cases e with
  | literal value =>
    cases h : value.isNegative with
    | false => rw [asWritten_literal (by rw [h, Bool.and_false]), isNegativeNumber, h]
    | true =>
      rw [asWritten_negative h]
      rfl
  | _ => rfl

/-- A base does not end with a number with a minus. -/
theorem endsNegative_asWritten (e : Expr) : (e.asWritten true).endsNegative = false := by
  cases e with
  | binary op l r =>
    have hr := r.isNegativeNumber_asWritten
    rw [asWritten]
    generalize r.asWritten true = r' at hr
    unfold endsNegative
    split
    · rename_i value heq
      cases heq
      exact hr
    · rfl
  | literal value =>
    rw [asWritten]
    split <;> rfl
  | _ => rfl

theorem startsFactor_asWritten : ∀ (e : Expr) (followed : Bool), e.startsFactor = true →
    (e.asWritten followed).startsFactor = true
  | .literal value, followed, h => by
    rw [asWritten]
    split
    · rfl
    · exact h
  | .binary op l _, _, h => startsFactor_asWritten l (op == .pow) h
  | .ident _, _, h | .call .., _, h | .unary .., _, h | .paren _, _, h => h

end Expr

/-- A number with a minus is one without, with a minus before it. -/
theorem Literal.isUnsigned_negated {value : Literal} (hneg : value.isNegative = true)
    (h : value.Legible) (hnegated : value.negated.Legible) :
    value.negated.isUnsigned = true ∧ value.negated.isIntegerZero = false := by
  have hnum : value.isNumber = true := Parser.isNumber_of_isNegative hneg
  have hzero : value.isIntegerZero = false := by
    cases value with
    | integer n =>
      have hlt : n < 0 := by simpa [isNegative] using hneg
      simpa [isIntegerZero] using Int.ne_of_lt hlt
    | _ => rfl
  refine ⟨isUnsigned_iff.2 ⟨?_, ?_, hnegated⟩, value.isIntegerZero_negated.trans hzero⟩
  · cases value <;> exact hnum
  · rw [isNegative_negated h hnum hzero, hneg, Bool.not_true]

theorem Literal.rank_negated {value : Literal} (hneg : value.isNegative = true) (h : value.Legible)
    (hnegated : value.negated.Legible) : (Expr.literal value.negated).rank = 6 := by
  have hunsigned := isUnsigned_iff.1 (isUnsigned_negated hneg h hnegated).1
  rw [Expr.rank, hunsigned.2.1, if_neg Bool.false_ne_true]

section Grammatical

variable {v : Vocabulary}

theorem Expr.isExponent_asWritten {e : Expr} {followed : Bool} (hclear : e.Clear v followed)
    (h : e.isLooseExponent = true) : (e.asWritten followed).isExponent = true := by
  cases e with
  | literal value =>
    cases hneg : followed && value.isNegative with
    | false =>
      rw [asWritten_literal hneg]
      rfl
    | true =>
      obtain ⟨rfl, hneg⟩ := (Bool.and_eq_true _ _).mp hneg
      rw [asWritten_negative hneg, isExponent, Literal.rank_negated hneg hclear.1 (hclear.2 rfl)]
      rfl
  | unary op operand =>
    have hgrip : operand.grip = 6 := by simpa [isLooseExponent] using h
    rw [asWritten, isExponent, rank_asWritten, rank_eq, hclear.1.1, hgrip]
    rfl
  | binary op l r => cases op <;> cases h
  | _ => rfl

/-- The operands of a clear operation bind tightly enough where they are written. -/
theorem BinaryOp.groups_asWritten {op : BinaryOp} {l r : Expr} {followed : Bool} (h : op.Binds l r)
    (hshows : op.Shows l r) (hr : r.Clear v followed) :
    op.Groups true (l.asWritten (op == .pow)) (r.asWritten followed) := by
  -- Up to the level of signs a number with a minus binds like any other, and above it there is none.
  have hlow : ∀ (e : Expr) (n : Nat), n ≤ 4 → n ≤ e.grip → n ≤ e.rank := by
    intro e n hfour hgrip
    rw [e.rank_eq]
    split
    · exact hfour
    · exact hgrip
  have hhigh : ∀ e : Expr, e.isNegativeNumber = false → e.rank = e.grip := by
    intro e he
    rw [e.rank_eq, he, if_neg Bool.false_ne_true]
  cases op with
  | pow =>
    refine ⟨?_, l.endsNegative_asWritten, Expr.isExponent_asWritten hr h.2⟩
    rw [Expr.rank_asWritten, hhigh l hshows]
    exact h.1
  | juxtaposed =>
    refine ⟨rfl, ?_, ?_, r.startsFactor_asWritten _ hshows.2⟩
    · rw [Expr.rank_asWritten]
      exact hlow l 3 (by decide) h.1
    · rw [Expr.rank_asWritten, hhigh r hshows.1]
      exact h.2
  | _ =>
    refine ⟨?_, ?_⟩ <;> rw [Expr.rank_asWritten]
    · exact hlow l _ (by decide) h.1
    · exact hlow r _ (by decide) h.2

theorem Argument.not_isHoleOnly_dropHole (as : List Argument) :
    ¬IsHoleOnly (dropHole as) := by
  unfold dropHole
  split
  · exact id
  · rename_i hne
    unfold IsHoleOnly
    split
    · exact fun _ => hne rfl
    · exact id

theorem Argument.allGrammatical_dropHole {as : List Argument} (h : AllGrammatical v as) :
    AllGrammatical v (dropHole as) := by
  unfold dropHole
  split
  · trivial
  · exact h

mutual

/-- **Where a clear expression is written**, there is an expression that is built as the grammar groups
it. -/
theorem Expr.grammatical_asWritten {passed : Prop} : ∀ (e : Expr) {followed : Bool},
    e.Meets (.ofOperations Expr.IsGrouped) passed → e.Clear v followed →
      (e.asWritten followed).Grammatical v true
  | .literal value, followed, _, h => by
    cases hneg : followed && value.isNegative with
    | false =>
      rw [Expr.asWritten_literal hneg]
      exact h.1
    | true =>
      obtain ⟨rfl, hneg⟩ := (Bool.and_eq_true _ _).mp hneg
      rw [Expr.asWritten_negative hneg]
      refine ⟨?_, h.2 rfl⟩
      rw [Literal.rank_negated hneg h.1 (h.2 rfl)]
      decide
  | .ident _, _, _, h => h
  | .call _ as _, _, hm, h =>
    ⟨h.1, Argument.not_isHoleOnly_dropHole _,
      Argument.allGrammatical_dropHole (Argument.allGrammatical_asWritten as hm.2 h.2.2)⟩
  | .unary op operand, followed, hm, h => by
    refine ⟨?_, operand.grammatical_asWritten hm.2 h.2⟩
    rw [Expr.rank_asWritten, Expr.rank_eq, h.1.1, if_neg Bool.false_ne_true]
    exact hm.1
  | .binary op l r, followed, hm, h =>
    ⟨BinaryOp.groups_asWritten hm.1 h.1 h.2.2, l.grammatical_asWritten hm.2.1 h.2.1,
      r.grammatical_asWritten hm.2.2 h.2.2⟩
  | .paren inner, _, hm, h => inner.grammatical_asWritten hm h

theorem Argument.allGrammatical_asWritten {passed : Prop} : ∀ as : List Argument,
    Argument.AllMeet (.ofOperations Expr.IsGrouped) passed as → Argument.AllClear v as →
      Argument.AllGrammatical v (Argument.allAsWritten as)
  | [], _, _ => trivial
  | a :: as, hm, h =>
    ⟨a.grammatical_asWritten hm.1 h.1, Argument.allGrammatical_asWritten as hm.2 h.2⟩

theorem Argument.grammatical_asWritten {passed : Prop} : ∀ a : Argument,
    a.Meets (.ofOperations Expr.IsGrouped) passed → a.Clear v → a.asWritten.Grammatical v
  | .hole, _, _ => trivial
  | .parameter _, _, h => h
  | .expr e, hm, h => e.grammatical_asWritten hm.2 h
  | .equation e, hm, h => e.grammatical_asWritten hm h

theorem Equation.grammatical_asWritten {passed : Prop} : ∀ e : Equation,
    e.Meets (.ofOperations Expr.IsGrouped) passed → e.Clear v → e.asWritten.Grammatical v
  | ⟨_, body, _⟩, hm, h => ⟨body.grammatical_asWritten hm h.1, h.2⟩

end

end Grammatical

/-! ### Nesting -/

theorem Argument.nestingAll_dropHole (as : List Argument) :
    nestingAll (dropHole as) = nestingAll as := by
  unfold dropHole
  split <;> rfl

mutual

theorem Expr.nesting_asWritten : ∀ (e : Expr) (followed : Bool),
    (e.asWritten followed).nesting = e.nesting
  | .literal value, followed => by
    rw [Expr.asWritten]
    split <;> rfl
  | .ident _, _ => rfl
  | .call _ as _, _ => (Argument.nestingAll_dropHole _).trans (Argument.nesting_allAsWritten as)
  | .unary _ operand, followed => operand.nesting_asWritten followed
  | .binary _ l r, _ => congrArg₂ max (l.nesting_asWritten _) (r.nesting_asWritten _)
  | .paren inner, _ => congrArg (· + 1) (inner.nesting_asWritten false)

theorem Argument.nesting_allAsWritten : ∀ as : List Argument,
    Argument.nestingAll (Argument.allAsWritten as) = Argument.nestingAll as
  | [] => rfl
  | a :: as => congrArg₂ max a.nesting_asWritten (Argument.nesting_allAsWritten as)

theorem Argument.nesting_asWritten : ∀ a : Argument, a.asWritten.nesting = a.nesting
  | .hole | .parameter _ => rfl
  | .expr e => congrArg (· + 1) (e.nesting_asWritten false)
  | .equation e => congrArg (· + 1) e.nesting_asWritten

theorem Equation.nesting_asWritten : ∀ e : Equation, e.asWritten.nesting = e.nesting
  | ⟨_, body, _⟩ => body.nesting_asWritten false

end

/-! ### What is read again -/

/-- What is read where the expression is written. -/
def Expr.reread (followed : Bool) (e : Expr) : Expr := ((e.asWritten followed).foldSigns followed).bare

def Argument.rereadAll (as : List Argument) : List Argument :=
  Argument.bareAll (Argument.foldSignsAll (Argument.allAsWritten as))

def Argument.reread (a : Argument) : Argument := a.asWritten.foldSigns.bare

def Equation.reread (e : Equation) : Equation := e.asWritten.foldSigns.bare

namespace UnaryOp

variable {op : UnaryOp} {followed : Bool} {e : Expr}

theorem foldedLiteral?_asWritten (h : e.isNegativeNumber = false) :
    op.foldedLiteral? followed (e.asWritten followed) = op.foldedLiteral? followed e := by
  cases e with
  | literal value =>
    have hneg : value.isNegative = false := h
    rw [Expr.asWritten_literal (by rw [hneg, Bool.and_false])]
  | _ => cases op <;> rfl

end UnaryOp

theorem Argument.dropHole_allAsWritten {as : List Argument} (h : ¬IsHoleOnly as) :
    dropHole (allAsWritten as) = allAsWritten as := by
  unfold dropHole
  split
  · rename_i heq
    cases as with
    | nil => cases heq
    | cons a as =>
      obtain ⟨ha, has⟩ := List.cons.inj heq
      cases as with
      | cons b bs => cases has
      | nil =>
        cases a with
        | hole => exact absurd trivial h
        | _ => cases ha
  · rfl

section Agrees

variable {v : Vocabulary}

/-- A marked place has no signs to be folded, and no places in it. -/
theorem Parameter.IsMarked.reread_eq {p : Parameter} (h : p.IsMarked v) :
    (Argument.parameter p).reread = .parameter p := by
  obtain ⟨refinement, name, value⟩ := p
  cases value with
  | equation e => exact h.2.2.elim
  | _ => rfl

mutual

/-- **What is written and what is read again** both agree with what was clear. -/
theorem Expr.agrees_reread : ∀ (e : Expr) {followed : Bool}, e.Clear v followed →
    e.Agrees (e.asWritten followed) ∧ e.Agrees (e.reread followed)
  | .literal value, followed, h => by
    unfold Expr.reread
    cases hneg : followed && value.isNegative with
    | false =>
      rw [Expr.asWritten_literal hneg]
      exact ⟨.refl _, .refl _⟩
    | true =>
      obtain ⟨rfl, hneg⟩ := (Bool.and_eq_true _ _).mp hneg
      obtain ⟨hunsigned, hzero⟩ := Literal.isUnsigned_negated hneg h.1 (h.2 rfl)
      have hagrees := Expr.Agrees.negated hunsigned hzero
      rw [Literal.negated_negated h.1] at hagrees
      rw [Expr.asWritten_negative hneg]
      exact ⟨hagrees.symm, hagrees.symm⟩
  | .ident name, _, _ => ⟨.refl _, .refl _⟩
  | .call name as range, _, h => by
    by_cases hhole : Argument.IsHoleOnly as
    · have hname := h.2.1 hhole
      match as, hhole with
      | [.hole], _ =>
        -- No function is called, so it does not matter that there is no argument any more.
        have hnone : ∀ range', (Expr.call name [.hole] range).Agrees (.call name [] range') := by
          intro range'
          refine .call_unresolved hname ?_ range range'
          rfl
        exact ⟨hnone range, hnone (.emptyAt 0)⟩
    · obtain ⟨hwritten, hread⟩ := Argument.allAgree_reread as h.2.2
      have hread := Expr.Agrees.call name hread range (.emptyAt 0)
      have hwritten := Expr.Agrees.call name hwritten range range
      rw [Argument.rereadAll, ← Argument.dropHole_allAsWritten hhole] at hread
      rw [← Argument.dropHole_allAsWritten hhole] at hwritten
      exact ⟨hwritten, hread⟩
  | .unary op operand, followed, h => by
    obtain ⟨hwritten, hread⟩ := operand.agrees_reread h.2
    refine ⟨.unary op hwritten, ?_⟩
    -- The operand has no minus, so it is written as the number that it is.
    have hsame := @UnaryOp.foldedLiteral?_asWritten op followed operand h.1.1
    unfold Expr.reread
    rw [Expr.asWritten]
    cases hfold : op.foldedLiteral? followed operand with
    | none =>
      rw [Parser.foldSigns_unary_none (hsame.trans hfold)]
      exact .unary op hread
    | some value =>
      obtain ⟨rfl, w, rfl, hw, rfl⟩ := UnaryOp.exists_of_foldedLiteral? hfold
      rw [Parser.foldSigns_unary_some (hsame.trans hfold)]
      exact .negated hw (w.isIntegerZero_negated ▸ h.1.2 _ hfold)
  | .binary op l r, _, h =>
    have hl := l.agrees_reread h.2.1
    have hr := r.agrees_reread h.2.2
    ⟨.binary op hl.1 hr.1, .binary op hl.2 hr.2⟩
  | .paren inner, _, h => ⟨.paren (inner.agrees_reread h).1, .paren (inner.agrees_reread h).2⟩

theorem Argument.allAgree_reread : ∀ as : List Argument, Argument.AllClear v as →
    Argument.AllAgree as (Argument.allAsWritten as) ∧ Argument.AllAgree as (Argument.rereadAll as)
  | [], _ => ⟨.nil, .nil⟩
  | a :: as, h =>
    have ha := a.agrees_reread h.1
    have has := Argument.allAgree_reread as h.2
    ⟨.cons ha.1 has.1, .cons ha.2 has.2⟩

theorem Argument.agrees_reread : ∀ a : Argument, a.Clear v →
    a.Agrees a.asWritten ∧ a.Agrees a.reread
  | .hole, _ => ⟨.refl _, .refl _⟩
  | .parameter p, h => by
    rw [Parameter.IsMarked.reread_eq h]
    exact ⟨.refl _, .refl _⟩
  | .expr e, h => ⟨.expr (e.agrees_reread h).1, .expr (e.agrees_reread h).2⟩
  | .equation e, h => ⟨.equation (e.render_reread h).1, .equation (e.render_reread h).2⟩

theorem Equation.render_reread : ∀ e : Equation, e.Clear v →
    e.asWritten.render = e.render ∧ e.reread.render = e.render
  | ⟨_, body, uncertainty⟩, h =>
    have hbody := body.agrees_reread h.1
    ⟨Equation.render_congr hbody.1.render uncertainty, Equation.render_congr hbody.2.render uncertainty⟩

end

end Agrees

end ControlFile
