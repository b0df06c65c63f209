import ControlFile.Proofs.Expr.Grouping
import ControlFile.Proofs.Expr.Lookahead

/-!
# The same tokens at other places

What is read does not depend on where the tokens stand.  A row of tokens that is displaced, every place
`n` in it being put to `f n`, is read as before: each parser gives a result that differs in places only,
or fails with the same fault, at the displaced place, and stops at the same token.

`Mirrors f move seen p q s` says this of two runs, of `p` at `s` and of `q` at `move s`, the state that is
displaced; `seen` says what is to be the same of the results.  There is one lemma for each parser of
expressions, and `Parser.mirrors_expression` is the last of them.
-/

namespace ControlFile

/-! ### Other places -/

section Places

variable (f : Nat → Nat)

/-- Both ends put elsewhere. -/
def Extent.displaced (r : Extent) : Extent := ⟨f r.start, f r.stop⟩

def Token.displaced (t : Token) : Token := { t with range := t.range.displaced f }

def Diagnostic.displaced (d : Diagnostic) : Diagnostic := d.moveTo (d.range.displaced f)

def Cursor.displaced (c : Cursor) : Cursor := ⟨c.rest.map (·.displaced f), f c.lastEnd, f c.textEnd⟩

@[simp] theorem Token.kind_displaced (t : Token) : (t.displaced f).kind = t.kind := rfl

@[simp] theorem Token.text_displaced (t : Token) : (t.displaced f).text = t.text := rfl

@[simp] theorem Token.spaced_displaced (t : Token) : (t.displaced f).spaced = t.spaced := rfl

@[simp] theorem Token.range_displaced (t : Token) : (t.displaced f).range = t.range.displaced f := rfl

namespace Cursor

variable (c : Cursor)

@[simp] theorem rest_displaced : (c.displaced f).rest = c.rest.map (·.displaced f) := rfl

@[simp] theorem lastEnd_displaced : (c.displaced f).lastEnd = f c.lastEnd := rfl

@[simp] theorem lexemes_displaced : (c.displaced f).lexemes = c.lexemes := by
  rw [lexemes, rest_displaced, List.map_map]
  rfl

@[simp] theorem peek?_displaced (n : Nat) :
    (c.displaced f).peek? n = (c.peek? n).map (·.displaced f) := List.getElem?_map

@[simp] theorem kind?_displaced : (c.displaced f).kind? = c.kind? := by
  rw [kind?_eq, lexemes_displaced, ← kind?_eq]

@[simp] theorem peekKind?_displaced (n : Nat) : (c.displaced f).peekKind? n = c.peekKind? n := by
  rw [peekKind?_eq, lexemes_displaced, ← peekKind?_eq]

@[simp] theorem isSpaced_displaced (n : Nat) : (c.displaced f).isSpaced n = c.isSpaced n := by
  rw [isSpaced_eq, lexemes_displaced, ← isSpaced_eq]

@[simp] theorem isAt_displaced (kind : TokenKind) : (c.displaced f).isAt kind = c.isAt kind := by
  rw [isAt_eq, lexemes_displaced, ← isAt_eq]

@[simp] theorem isAtMinusNumber_displaced : (c.displaced f).isAtMinusNumber = c.isAtMinusNumber := by
  rw [isAtMinusNumber_eq, lexemes_displaced, ← isAtMinusNumber_eq]

@[simp] theorem isAtNegativeLiteral_displaced :
    (c.displaced f).isAtNegativeLiteral = c.isAtNegativeLiteral := by
  rw [isAtNegativeLiteral_eq, lexemes_displaced, ← isAtNegativeLiteral_eq]

@[simp] theorem isAtCall_displaced : (c.displaced f).isAtCall = c.isAtCall := by
  rw [isAtCall_eq, lexemes_displaced, ← isAtCall_eq]

@[simp] theorem operation?_displaced (juxtapose : Bool) :
    Parser.operation? juxtapose (c.displaced f) = Parser.operation? juxtapose c := by
  rw [operation?_eq, lexemes_displaced, ← operation?_eq]

@[simp] theorem sign?_displaced : (c.displaced f).sign? = c.sign? := by
  rw [sign?, kind?_displaced, ← sign?]

@[simp] theorem isAtParameterName_displaced (v : Vocabulary) :
    (c.displaced f).isAtParameterName v = c.isAtParameterName v := by
  unfold isAtParameterName
  rw [peek?_displaced]
  cases c.peek? 0 <;> rfl

@[simp] theorem found_displaced : (c.displaced f).found = c.found := by
  rw [found, peek?_displaced, Option.map_map]
  rfl

@[simp] theorem here_displaced : (c.displaced f).here = c.here.displaced f := by
  unfold here
  rw [rest_displaced]
  cases c.rest <;> rfl

@[simp] theorem advance_displaced : (c.displaced f).advance = c.advance.displaced f := by
  unfold advance
  rw [rest_displaced]
  cases hrest : c.rest with
  | nil => rfl
  | cons t ts => simp [displaced, Extent.displaced]

/-- A row of tokens that is chosen by what they are is the displaced row. -/
theorem skipWhile_displaced {p : Token → Bool} (hp : ∀ t, p (t.displaced f) = p t) :
    (c.displaced f).skipWhile p = (c.skipWhile p).displaced f := by
  have hcomp : (p ∘ fun t => t.displaced f) = p := funext hp
  simp only [skipWhile, displaced, List.dropWhile_map, List.takeWhile_map, hcomp, List.getLast?_map]
  cases (c.rest.takeWhile p).getLast? <;> rfl

end Cursor

end Places

/-! ### Runs that mirror each other -/

/-- Outcomes that differ in places only.  `move` displaces the state, and `seen` says what is to be the
same of the results. -/
inductive Mirrored (f : Nat → Nat) {σ α β : Type} (move : σ → σ) (seen : α → β) :
    EStateM.Result Diagnostic σ α → EStateM.Result Diagnostic σ α → Prop
  | ok {a a' : α} {s : σ} (h : seen a' = seen a) : Mirrored f move seen (.ok a s) (.ok a' (move s))
  | error {d : Diagnostic} {s : σ} :
    Mirrored f move seen (.error d s) (.error (d.displaced f) (move s))

/-- The run of `q` at the displaced state mirrors that of `p`. -/
def Mirrors (f : Nat → Nat) {σ α β : Type} (move : σ → σ) (seen : α → β)
    (p q : EStateM Diagnostic σ α) (s : σ) : Prop :=
  Mirrored f move seen (p s) (q (move s))

namespace Mirrors

variable {f : Nat → Nat} {σ α α' β γ : Type} {move : σ → σ} {seen : α → β} {seen' : α' → γ}
  {p q : EStateM Diagnostic σ α} {k l : α → EStateM Diagnostic σ α'} {s : σ}

theorem pure {a a' : α} (h : seen a' = seen a) :
    Mirrors f move seen (Pure.pure a) (Pure.pure a') s := .ok h

/-- What comes next is run on results that look the same. -/
theorem bind (h : Mirrors f move seen p q s)
    (hk : ∀ a a' s, seen a' = seen a → Mirrors f move seen' (k a) (l a') s) :
    Mirrors f move seen' (p >>= k) (q >>= l) s := by
  change Mirrored f move seen' (EStateM.bind p k s) (EStateM.bind q l (move s))
  unfold EStateM.bind
  unfold Mirrors at h
  generalize p s = outcome, q (move s) = outcome' at h ⊢
  cases h with
  | ok ha => exact hk _ _ _ ha
  | error => exact .error

/-- A result that holds no places is the same. -/
theorem bind_eq {p q : EStateM Diagnostic σ α} (h : Mirrors f move id p q s)
    (hk : ∀ a s, Mirrors f move seen' (k a) (l a) s) : Mirrors f move seen' (p >>= k) (q >>= l) s := by
  refine h.bind fun a a' s ha => ?_
  rw [show a' = a from ha]
  exact hk a s

theorem get_bind {k l : σ → EStateM Diagnostic σ α'} (h : Mirrors f move seen' (k s) (l (move s)) s) :
    Mirrors f move seen' (get >>= k) (get >>= l) s := h

theorem ite {c : Prop} [Decidable c] {p p' q q' : EStateM Diagnostic σ α}
    (hpos : c → Mirrors f move seen p q s) (hneg : ¬c → Mirrors f move seen p' q' s) :
    Mirrors f move seen (if c then p else p') (if c then q else q') s := by
  by_cases h : c
  · rw [if_pos h, if_pos h]
    exact hpos h
  · rw [if_neg h, if_neg h]
    exact hneg h

/-- What comes of results that look the same. -/
theorem map {g : α → α'} (h : Mirrors f move seen p q s)
    (hg : ∀ a a', seen a' = seen a → seen' (g a') = seen' (g a)) :
    Mirrors f move seen' (do return g (← p)) (do return g (← q)) s :=
  h.bind fun a a' _ ha => pure (hg a a' ha)

end Mirrors

namespace Parser

variable {f : Nat → Nat} {α β : Type} {c : Cursor}

/-- The parser reads the displaced tokens as it reads those at the cursor. -/
abbrev Mirrors (f : Nat → Nat) (seen : α → β) (p q : Parser α) (c : Cursor) : Prop :=
  ControlFile.Mirrors f (Cursor.displaced f) seen p q c

/-! ### Single tokens -/

theorem mirrors_fail (fault : Fault) (seen : α → β) : Mirrors f seen (fail fault) (fail fault) c := by
  have herror : (fail fault : Parser α) (c.displaced f) =
      .error (Diagnostic.displaced f ⟨fault, c.here⟩) (c.displaced f) := by
    rw [fail, Cursor.here_displaced]
    rfl
  unfold Parser.Mirrors ControlFile.Mirrors
  rw [herror]
  exact .error

theorem mirrors_failExpected (what : Expected) (seen : α → β) :
    Mirrors f seen (failExpected what) (failExpected what) c := by
  have herror : (failExpected what : Parser α) (c.displaced f) =
      .error (Diagnostic.displaced f ⟨.expected what c.found, c.here⟩) (c.displaced f) := by
    rw [failExpected, Cursor.here_displaced, Cursor.found_displaced]
    rfl
  unfold Parser.Mirrors ControlFile.Mirrors
  rw [herror]
  exact .error

theorem mirrors_advance : Mirrors f id advance advance c := by
  have hrun : advance (c.displaced f) = .ok () (c.advance.displaced f) := by
    rw [advance_run, Cursor.advance_displaced]
  unfold Parser.Mirrors ControlFile.Mirrors
  rw [hrun]
  exact .ok rfl

theorem mirrors_advance_bind {seen : α → β} {k l : Unit → Parser α}
    (h : Mirrors f seen (k ()) (l ()) c.advance) : Mirrors f seen (advance >>= k) (advance >>= l) c := by
  unfold Parser.Mirrors ControlFile.Mirrors
  change Mirrored _ _ _ (k () c.advance) (l () (c.displaced f).advance)
  rw [Cursor.advance_displaced]
  exact h

theorem mirrors_takeIf (kind : TokenKind) : Mirrors f id (takeIf kind) (takeIf kind) c := by
  unfold Parser.Mirrors ControlFile.Mirrors takeIf
  rw [Cursor.isAt_displaced]
  by_cases h : c.isAt kind = true
  · rw [if_pos h, if_pos h, Cursor.advance_displaced]
    exact .ok rfl
  · rw [if_neg h, if_neg h]
    exact .ok rfl

theorem mirrors_expect (kind : TokenKind) (what : Expected) :
    Mirrors f id (expect kind what) (expect kind what) c := by
  by_cases h : c.isAt kind = true
  · unfold Parser.Mirrors ControlFile.Mirrors expect
    rw [Cursor.isAt_displaced, if_pos h, if_pos h, Cursor.advance_displaced]
    exact .ok rfl
  · have hfail : ∀ c : Cursor, c.isAt kind = false → expect kind what c = failExpected what c := by
      intro c hc
      rw [expect, hc]
      rfl
    unfold Parser.Mirrors ControlFile.Mirrors
    rw [hfail c (by simpa using h), hfail (c.displaced f) (by simpa using h)]
    exact mirrors_failExpected what id

theorem mirrors_takeText : Mirrors f id takeText takeText c := by
  unfold Parser.Mirrors ControlFile.Mirrors takeText
  rw [Cursor.peek?_displaced, Cursor.advance_displaced, Option.map_map]
  exact .ok rfl

/-! ### Literals and values -/

theorem literal_displaced (negative : Bool) (t : Token) :
    (t.displaced f).literal negative = t.literal negative := rfl

theorem mirrors_literal (negative : Bool) : Mirrors f id (literal negative) (literal negative) c := by
  cases hrest : c.rest with
  | nil =>
    have hfail : ∀ c : Cursor, c.rest = [] → literal negative c = failExpected .expression c := by
      intro c hc
      rw [literal, hc]
    unfold Parser.Mirrors ControlFile.Mirrors
    rw [hfail c hrest, hfail (c.displaced f) (by simp [hrest])]
    exact mirrors_failExpected .expression id
  | cons t ts =>
    unfold Parser.Mirrors ControlFile.Mirrors literal
    rw [Cursor.rest_displaced, hrest, List.map_cons]
    dsimp only
    rw [literal_displaced, Cursor.advance_displaced]
    cases t.literal negative with
    | ok value => exact .ok rfl
    | error fault => exact .error

theorem mirrors_signedLiteral? : Mirrors f id signedLiteral? signedLiteral? c := by
  refine .get_bind ?_
  rw [Cursor.isAtMinusNumber_displaced, Cursor.kind?_displaced]
  refine .ite (fun _ => ?_) fun _ => .ite (fun _ => ?_) fun _ => .pure rfl
  · exact mirrors_advance_bind ((mirrors_literal true).bind_eq fun _ _ => .pure rfl)
  · exact (mirrors_literal false).bind_eq fun _ _ => .pure rfl

theorem mirrors_refinement : Mirrors f id refinement refinement c := by
  refine (mirrors_takeIf _).bind_eq fun _ _ => ?_
  refine .ite (fun _ => .pure rfl) fun _ => ?_
  refine (mirrors_takeIf _).bind_eq fun _ _ => ?_
  exact .ite (fun _ => .pure rfl) fun _ => .pure rfl

theorem mirrors_parameterName? (v : Vocabulary) :
    Mirrors f id (parameterName? v) (parameterName? v) c := by
  refine .get_bind ?_
  rw [Cursor.isAtParameterName_displaced]
  exact .ite (fun _ => mirrors_takeText.bind_eq fun _ _ => .pure rfl) fun _ => .pure rfl

theorem mirrors_literalValue : Mirrors f id literalValue literalValue c := by
  refine mirrors_signedLiteral?.bind_eq fun value _ => ?_
  cases value with
  | some value => exact .pure rfl
  | none => exact .pure rfl

theorem mirrors_markedParameter (v : Vocabulary) :
    Mirrors f id (markedParameter v) (markedParameter v) c := by
  refine mirrors_refinement.bind_eq fun _ _ => ?_
  refine (mirrors_parameterName? v).bind_eq fun _ _ => ?_
  exact mirrors_literalValue.bind_eq fun _ _ => .pure rfl

theorem mirrors_uncertainty : Mirrors f id uncertainty uncertainty c := by
  refine .get_bind ?_
  rw [Cursor.isAt_displaced]
  refine .ite (fun _ => mirrors_takeText.bind_eq fun _ _ => .pure rfl) fun _ => ?_
  refine mirrors_signedLiteral?.bind_eq fun value _ => ?_
  rcases value with - | (n | x | text)
  · exact mirrors_fail _ id
  · exact .pure rfl
  · exact .pure rfl
  · exact mirrors_fail _ id

/-! ### Signs -/

/-- An operand that may have a sign: what exponents and the factors of a product have in common. -/
def signing (operand : Parser Expr) : Parser Expr := do
  let c ← get
  if c.isAtNegativeLiteral then
    advance
    return .literal (← literal true)
  else
    match c.sign? with
    | some op =>
      advance
      return .unary op (← operand)
    | none => operand

theorem signed_eq (v : Vocabulary) (inner : Parser Expr) : signed v inner = signing (power v inner) := rfl

theorem exponent_eq (v : Vocabulary) (inner : Parser Expr) :
    exponent v inner = signing (primary v inner) := rfl

theorem mirrors_signing {operand : Parser Expr} (h : ∀ c, Mirrors f Expr.bare operand operand c)
    (c : Cursor) : Mirrors f Expr.bare (signing operand) (signing operand) c := by
  refine .get_bind ?_
  rw [Cursor.isAtNegativeLiteral_displaced, Cursor.sign?_displaced]
  refine .ite (fun _ => ?_) fun _ => ?_
  · exact mirrors_advance_bind ((mirrors_literal true).bind_eq fun _ _ => .pure rfl)
  · cases c.sign? with
    | none => exact h c
    | some op =>
      exact mirrors_advance_bind ((h _).map fun e e' he => by rw [Expr.bare, he, Expr.bare])

/-! ### Arguments and operands -/

section Nested

variable {inner : Parser Expr} (hinner : ∀ c, Mirrors f Expr.bare inner inner c)
include hinner

theorem mirrors_equation (op : AssignOp) :
    Mirrors f Equation.bare (equation inner op) (equation inner op) c := by
  refine mirrors_advance_bind ((hinner _).bind fun e e' _ he => ?_)
  refine (mirrors_expect _ _).bind_eq fun _ _ => (mirrors_takeIf _).bind_eq fun _ _ => ?_
  refine .ite (fun _ => mirrors_uncertainty.bind_eq fun u _ => .pure ?_) fun _ => .pure ?_
  · rw [Equation.bare, he, Equation.bare]
  · rw [Equation.bare, he, Equation.bare]

theorem mirrors_argument (v : Vocabulary) :
    Mirrors f Argument.bare (argument v inner) (argument v inner) c := by
  have hparameter : Mirrors f Argument.bare (do return .parameter (← markedParameter v))
      (do return .parameter (← markedParameter v)) c :=
    (mirrors_markedParameter v).bind_eq fun _ _ => .pure rfl
  have hexpr : ∀ kind : TokenKind, Mirrors f Argument.bare
      (if kind.startsExpression = true then (do return .expr (← inner))
        else fail (.invalidArgument c.found))
      (if kind.startsExpression = true then (do return .expr (← inner))
        else fail (.invalidArgument c.found)) c := fun kind =>
    .ite (fun _ => (hinner c).map fun e e' he => by rw [Argument.bare, he, Argument.bare])
      fun _ => mirrors_fail _ _
  refine .get_bind ?_
  rw [Cursor.kind?_displaced, Cursor.found_displaced]
  cases hk : c.kind? with
  | none => exact mirrors_fail _ _
  | some kind =>
    cases kind with
    | mark m =>
      cases m with
      | comma => exact .pure rfl
      | closeParen => exact .pure rfl
      | atSign => exact hparameter
      | bang => exact hparameter
      | _ => exact hexpr _
    | assign op =>
      exact (mirrors_equation hinner op).map fun e e' he => by rw [Argument.bare, he, Argument.bare]
    | _ => exact hexpr _

theorem mirrors_arguments (v : Vocabulary) (limit : Nat) (c : Cursor) :
    Mirrors f Argument.bareAll (arguments v inner limit) (arguments v inner limit) c := by
  induction limit generalizing c with
  | zero => exact .pure rfl
  | succ limit ih =>
    refine (mirrors_argument hinner v).bind fun a a' _ ha => (mirrors_takeIf _).bind_eq fun _ c' => ?_
    refine .ite (fun _ => (ih c').bind fun as as' _ has => .pure ?_) fun _ =>
      (mirrors_expect _ _).bind_eq fun _ _ => .pure ?_
    · rw [Argument.bareAll, ha, has, Argument.bareAll]
    · rw [Argument.bareAll, ha]
      rfl

/-- A call is read as before, wherever it starts. -/
theorem mirrors_call (v : Vocabulary) (name : String) (start start' : Nat) :
    Mirrors f Expr.bare (call v inner name start) (call v inner name start') c := by
  have hcall : ∀ (as as' : List Argument) (c : Cursor), Argument.bareAll as' = Argument.bareAll as →
      Mirrors f Expr.bare (do return .call name as ⟨start, (← get).lastEnd⟩)
        (do return .call name as' ⟨start', (← get).lastEnd⟩) c := by
    intro as as' c has
    refine .get_bind (.pure ?_)
    rw [Expr.bare, has, Expr.bare]
  refine mirrors_advance_bind ((mirrors_takeIf _).bind_eq fun closed c' => ?_)
  refine .ite (fun _ => hcall [] [] c' rfl) fun _ => .get_bind ?_
  rw [Cursor.rest_displaced, List.length_map]
  exact (mirrors_arguments hinner v _ c').bind fun as as' c'' has => hcall as as' c'' has

theorem mirrors_primary (v : Vocabulary) (c : Cursor) :
    Mirrors f Expr.bare (primary v inner) (primary v inner) c := by
  have hliteral : Mirrors f Expr.bare (do return .literal (← literal false))
      (do return .literal (← literal false)) c :=
    (mirrors_literal false).bind_eq fun _ _ => .pure rfl
  refine .get_bind ?_
  rw [Cursor.peek?_displaced]
  cases ht : c.peek? 0 with
  | none => exact mirrors_failExpected _ _
  | some t =>
    rw [Option.map_some]
    dsimp only
    rw [Token.kind_displaced, Cursor.isAtCall_displaced, Token.text_displaced]
    cases t.kind with
    | integer => exact hliteral
    | decimal => exact hliteral
    | string => exact hliteral
    | ident =>
      exact mirrors_advance_bind (.ite (fun _ => mirrors_call hinner v _ _ _) fun _ => .pure rfl)
    | directive word =>
      cases word with
      | unique => exact mirrors_advance_bind (.pure rfl)
      | _ => exact mirrors_failExpected _ _
    | mark m =>
      cases m with
      | openParen =>
        refine mirrors_advance_bind ((hinner _).bind fun e e' _ he => ?_)
        refine (mirrors_expect _ _).bind_eq fun _ _ => .pure ?_
        rw [Expr.bare, he, Expr.bare]
      | _ => exact mirrors_failExpected _ _
    | _ => exact mirrors_failExpected _ _

/-! ### Operations -/

theorem mirrors_exponent (v : Vocabulary) (c : Cursor) :
    Mirrors f Expr.bare (exponent v inner) (exponent v inner) c :=
  exponent_eq v inner ▸ mirrors_signing (mirrors_primary hinner v) c

theorem mirrors_exponents (v : Vocabulary) (limit : Nat) {base base' : Expr}
    (hbase : base'.bare = base.bare) (c : Cursor) :
    Mirrors f Expr.bare (exponents v inner limit base) (exponents v inner limit base') c := by
  induction limit generalizing base base' c with
  | zero => exact .pure hbase
  | succ limit ih =>
    refine (mirrors_takeIf _).bind_eq fun _ c' => .ite (fun _ => ?_) fun _ => .pure hbase
    refine (mirrors_exponent hinner v c').bind fun e e' c'' he => ih ?_ c''
    rw [Expr.bare, hbase, he, Expr.bare]

theorem mirrors_power (v : Vocabulary) (c : Cursor) :
    Mirrors f Expr.bare (power v inner) (power v inner) c := by
  refine (mirrors_primary hinner v c).bind fun base base' c' hbase => .get_bind ?_
  rw [Cursor.rest_displaced, List.length_map]
  exact mirrors_exponents hinner v _ hbase c'

theorem mirrors_signed (v : Vocabulary) (c : Cursor) :
    Mirrors f Expr.bare (signed v inner) (signed v inner) c :=
  signed_eq v inner ▸ mirrors_signing (mirrors_power hinner v) c

end Nested

section Levels

variable {operand : Parser Expr} (hoperand : ∀ c, Mirrors f Expr.bare operand operand c)
include hoperand

theorem mirrors_operations (juxtapose : Bool) (level limit : Nat) {lhs lhs' : Expr}
    (hlhs : lhs'.bare = lhs.bare) (c : Cursor) :
    Mirrors f Expr.bare (operations juxtapose level operand limit lhs)
      (operations juxtapose level operand limit lhs') c := by
  induction limit generalizing lhs lhs' c with
  | zero => exact .pure hlhs
  | succ limit ih =>
    refine .get_bind ?_
    rw [Cursor.operation?_displaced]
    cases operation? juxtapose c with
    | none => exact .pure hlhs
    | some op =>
      have hsymbol : Mirrors f id (skipSymbol op) (skipSymbol op) c :=
        .ite (fun _ => .pure rfl) fun _ => mirrors_advance
      refine .ite (fun _ => ?_) fun _ => .pure hlhs
      refine hsymbol.bind_eq fun _ c' => (hoperand c').bind fun rhs rhs' c'' hrhs => ih ?_ c''
      rw [Expr.bare, hlhs, hrhs, Expr.bare]

theorem mirrors_grouped (juxtapose : Bool) (level : Nat) (c : Cursor) :
    Mirrors f Expr.bare (grouped juxtapose level operand) (grouped juxtapose level operand) c := by
  refine (hoperand c).bind fun lhs lhs' c' hlhs => .get_bind ?_
  rw [Cursor.rest_displaced, List.length_map]
  exact mirrors_operations hoperand juxtapose level _ hlhs c'

end Levels

/-- **An expression is read the same wherever its tokens stand.** -/
theorem mirrors_expression (v : Vocabulary) (levels : Nat) (juxtapose : Bool) (c : Cursor) :
    Mirrors f Expr.bare (expression v levels juxtapose) (expression v levels juxtapose) c := by
  induction levels generalizing juxtapose c with
  | zero => exact mirrors_fail _ _
  | succ levels ih =>
    exact mirrors_grouped (mirrors_grouped (mirrors_grouped (mirrors_signed (ih true) v) juxtapose 3)
      juxtapose 2) juxtapose 1 c

end Parser

end ControlFile
