import ControlFile.Proofs.Expr.Sound
import ControlFile.Proofs.Item.Statement
import ControlFile.Proofs.Macro.Words

/-!
# What is read is written

Every name in the items of a text is a word of the text, every string in them is one of its strings, and
no other string is a name.  So what holds of all words and strings of a text holds of all names and
texts that are read from it (`Parsed.items_written`), also where something cannot be read.
-/

namespace ControlFile

/-! ### Steps that leave something as it is -/

section Maintains

variable {ε σ α β : Type} {I : σ → Prop}

/-- From a state with `I` the step leads to one with `I`, also if it fails; and `Q` holds of what it
gives. -/
def Maintains (I : σ → Prop) (e : EStateM ε σ α) (Q : α → Prop) : Prop :=
  ∀ s, I s → match e s with
    | .ok a s' => I s' ∧ Q a
    | .error _ s' => I s'

namespace Maintains

variable {e : EStateM ε σ α} {f : α → EStateM ε σ β} {P : α → Prop} {Q : β → Prop}

theorem pure {b : β} (h : Q b) : Maintains I (Pure.pure b : EStateM ε σ β) Q := fun _ hs => ⟨hs, h⟩

theorem throw (fault : ε) : Maintains I (throw fault : EStateM ε σ β) Q := fun _ hs => hs

theorem bind (he : Maintains I e P) (hf : ∀ a, P a → Maintains I (f a) Q) :
    Maintains I (e >>= f) Q := by
  intro s hs
  have hstep := he s hs
  have hbind : (e >>= f) s = EStateM.bind e f s := rfl
  rw [hbind, EStateM.bind]
  cases hrun : e s with
  | ok a s' =>
    rw [hrun] at hstep
    exact hf a hstep.2 s' hstep.1
  | error d s' =>
    rw [hrun] at hstep
    exact hstep

/-- The invariant holds of the state that is looked at. -/
theorem get_bind {f : σ → EStateM ε σ β} (h : ∀ s, I s → Maintains I (f s) Q) :
    Maintains I (get >>= f) Q := fun s hs => h s hs s hs

theorem get_run {f : σ → EStateM ε σ β}
    (h : ∀ s, I s → match f s s with
      | .ok b s' => I s' ∧ Q b
      | .error _ s' => I s') : Maintains I (get >>= f) Q := h

theorem ite {c : Prop} [Decidable c] {e' : EStateM ε σ α} (h : Maintains I e P)
    (h' : Maintains I e' P) : Maintains I (if c then e else e') P := by
  split
  · exact h
  · exact h'

end Maintains

/-- The same of a step that cannot fail. -/
def Maintained (I : σ → Prop) (p : StateM σ α) (Q : α → Prop) : Prop :=
  ∀ s, I s → I (p s).2 ∧ Q (p s).1

namespace Maintained

variable {p : StateM σ α} {f : α → StateM σ β} {P : α → Prop} {Q : β → Prop}

theorem pure {b : β} (h : Q b) : Maintained I (Pure.pure b : StateM σ β) Q := fun _ hs => ⟨hs, h⟩

theorem bind (hp : Maintained I p P) (hf : ∀ a, P a → Maintained I (f a) Q) :
    Maintained I (p >>= f) Q := fun s hs => hf _ (hp s hs).2 _ (hp s hs).1

theorem get : Maintained I (get : StateM σ σ) I := fun _ hs => ⟨hs, hs⟩

theorem ite {c : Prop} [Decidable c] {p' : StateM σ α} (h : Maintained I p P)
    (h' : Maintained I p' P) : Maintained I (if c then p else p') P := by
  split
  · exact h
  · exact h'

end Maintained

end Maintains

/-! ### Tokens ahead -/

/-- All that can be read from the tokens as a name or as the text of a string is as demanded; nothing is
demanded of arguments and of what macros may be called, and of operations nothing but what the grammar
says. -/
structure Demands.Admits (d : Demands) (ts : List Token) : Prop where
  genuine : ∀ t ∈ ts, LexesAs t.kind t.text
  name : ∀ t ∈ ts, t.kind = .ident ∨ t.kind = .directive .unique → d.name t.text
  text : ∀ t ∈ ts, t.kind = .string → d.text (unquote t.text)
  mark : d.name uniqueMark
  callee : ∀ n, d.callee n
  argument : ∀ e, d.argument e
  operation : ∀ (v : Vocabulary) (j : Bool) (e : Expr), e.Grammatical v j → d.operation e

theorem Demands.Admits.of_subset {d : Demands} {ts us : List Token} (h : d.Admits ts) (hs : us ⊆ ts) :
    d.Admits us :=
  ⟨fun t ht => h.genuine t (hs ht), fun t ht => h.name t (hs ht), fun t ht => h.text t (hs ht), h.mark,
    h.callee, h.argument, h.operation⟩

namespace Cursor

theorem rest_advance_subset (c : Cursor) : c.advance.rest ⊆ c.rest := by
  unfold advance
  split
  · rename_i t ts hrest
    exact hrest ▸ List.subset_cons_self t ts
  · exact List.Subset.refl _

theorem rest_skipWhile_subset (p : Token → Bool) (c : Cursor) : (c.skipWhile p).rest ⊆ c.rest :=
  (List.dropWhile_sublist p).subset

theorem rest_recover_subset (c : Cursor) : c.recover.rest ⊆ c.rest := by
  unfold recover
  dsimp only
  split
  · exact List.Subset.trans (rest_advance_subset _) (rest_skipWhile_subset _ c)
  · exact rest_skipWhile_subset _ c

theorem mem_rest_of_peek? {c : Cursor} {n : Nat} {t : Token} (h : c.peek? n = some t) : t ∈ c.rest :=
  List.mem_of_getElem? h

end Cursor

/-- From tokens that the demands admit the parser leads to such ones; and `Q` holds of what is read. -/
abbrev Parser.Admits {α : Type} (d : Demands) (p : Parser α) (Q : α → Prop) : Prop :=
  Maintains (fun c : Cursor => d.Admits c.rest) p Q

namespace Parser

variable {α : Type} {d : Demands}

/-! ### Names and literals -/

theorem admits_fail {Q : α → Prop} (fault : Fault) : Admits d (fail fault) Q := fun _ hc => hc

theorem admits_failExpected {Q : α → Prop} (what : Expected) : Admits d (failExpected what) Q :=
  fun _ hc => hc

theorem admits_failAt {Q : α → Prop} (range : Extent) (fault : Fault) :
    Admits d (failAt range fault) Q := .throw _

theorem admits_advance : Admits d advance fun _ => True :=
  fun c hc => ⟨hc.of_subset c.rest_advance_subset, trivial⟩

theorem admits_takeIf (kind : TokenKind) : Admits d (takeIf kind) fun _ => True := by
  intro c hc
  unfold takeIf
  by_cases hat : c.isAt kind = true
  · rw [if_pos hat]
    exact ⟨hc.of_subset c.rest_advance_subset, trivial⟩
  · rw [if_neg hat]
    exact ⟨hc, trivial⟩

theorem admits_expect (kind : TokenKind) (what : Expected) :
    Admits d (expect kind what) fun _ => True := by
  intro c hc
  unfold expect
  by_cases hat : c.isAt kind = true
  · rw [if_pos hat]
    exact ⟨hc.of_subset c.rest_advance_subset, trivial⟩
  · rw [if_neg hat]
    exact hc

theorem admits_takeText : Admits d takeText fun _ => True :=
  fun c hc => ⟨hc.of_subset c.rest_advance_subset, trivial⟩

theorem admits_freeWord? (starts : TokenKind → Bool) :
    Admits d (freeWord? starts) fun _ => True := by
  intro c hc
  unfold freeWord?
  cases hrest : c.rest with
  | nil => exact ⟨hc, trivial⟩
  | cons t ts =>
    dsimp only
    by_cases hunique : t.kind = .directive .unique
    · rw [if_pos hunique]
      exact ⟨hc.of_subset c.rest_advance_subset, trivial⟩
    · rw [if_neg hunique]
      by_cases hstart : starts t.kind = true
      · rw [if_pos hstart]
        refine ⟨hc.of_subset ?_, trivial⟩
        exact List.Subset.trans (c.advance.rest_skipWhile_subset _) c.rest_advance_subset
      · rw [if_neg hstart]
        exact ⟨hc, trivial⟩

/-- The text that is taken at a word is a name. -/
theorem name_of_isAt {c : Cursor} (hc : d.Admits c.rest) {kind : TokenKind}
    (hkind : kind = .ident ∨ kind = .directive .unique) (hat : c.isAt kind = true) :
    d.name (((c.peek? 0).map (·.text)).getD "") := by
  unfold Cursor.isAt Cursor.kind? at hat
  cases hpeek : c.peek? 0 with
  | none => simp [hpeek] at hat
  | some t =>
    have ht : t.kind = kind := by simpa [hpeek] using hat
    exact hc.name t (Cursor.mem_rest_of_peek? hpeek) (ht ▸ hkind)

theorem admits_name (role : NameRole) : Admits d (name role) d.name := by
  refine .get_run fun c hc => ?_
  by_cases hat : (c.isAt .ident || c.isAt (.directive .unique)) = true
  · rw [if_pos hat]
    refine ⟨hc.of_subset c.rest_advance_subset, ?_⟩
    rcases Bool.or_eq_true_iff.1 hat with hat | hat
    · exact name_of_isAt hc (.inl rfl) hat
    · exact name_of_isAt hc (.inr rfl) hat
  · rw [if_neg hat]
    exact hc

theorem admits_parameterName? (v : Vocabulary) :
    Admits d (parameterName? v) fun o => ∀ n ∈ o, d.name n := by
  refine .get_run fun c hc => ?_
  by_cases hat : c.isAtParameterName v = true
  · rw [if_pos hat]
    refine ⟨hc.of_subset c.rest_advance_subset, ?_⟩
    rintro _ ⟨⟩
    unfold Cursor.isAtParameterName at hat
    cases hpeek : c.peek? 0 with
    | none => simp [hpeek] at hat
    | some t =>
      refine hc.name t (Cursor.mem_rest_of_peek? hpeek) ?_
      rw [hpeek] at hat
      dsimp only at hat
      split at hat
      · exact .inl ‹_›
      · exact .inr ‹_›
      · cases hat
  · rw [if_neg hat]
    exact ⟨hc, by rintro _ ⟨⟩⟩

theorem admits_literal (negative : Bool) : Admits d (literal negative) (Literal.Meets d) := by
  intro c hc
  unfold literal
  cases hrest : c.rest with
  | nil => exact hc
  | cons t ts =>
    dsimp only
    cases hvalue : t.literal negative with
    | error fault => exact hc
    | ok value =>
      refine ⟨hc.of_subset c.rest_advance_subset, ?_⟩
      cases value with
      | string text =>
        unfold Token.literal at hvalue
        split at hvalue
        · dsimp only at hvalue
          split at hvalue <;> split at hvalue <;> cases hvalue
        · split at hvalue <;> cases hvalue
        · cases hvalue
          exact hc.text t (by simp [hrest]) ‹_›
        · cases hvalue
      | integer n => trivial
      | decimal x => trivial

theorem admits_signedLiteral? : Admits d signedLiteral? fun o => ∀ value ∈ o, value.Meets d := by
  have hsome : ∀ negative, Admits d (do return some (← literal negative))
      fun o => ∀ value ∈ o, value.Meets d := fun negative =>
    (admits_literal negative).bind fun value hvalue => .pure (by rintro _ ⟨⟩; exact hvalue)
  refine .get_bind fun c _ => ?_
  refine .ite ?_ (.ite (hsome false) (.pure (by rintro _ ⟨⟩)))
  exact admits_advance.bind fun _ _ => hsome true

/-! ### Parameters and equations -/

theorem admits_refinement : Admits d refinement fun _ => True := by
  refine (admits_takeIf _).bind fun _ _ => ?_
  exact .ite (.pure trivial) <| (admits_takeIf _).bind fun _ _ => .ite (.pure trivial) (.pure trivial)

theorem admits_literalValue : Admits d literalValue (Value.Meets d True) := by
  refine admits_signedLiteral?.bind fun o ho => ?_
  cases o with
  | some value => exact .pure fun _ => ho value rfl
  | none => exact .pure trivial

theorem admits_markedParameter (v : Vocabulary) : Admits d (markedParameter v) (Parameter.Meets d True) := by
  refine admits_refinement.bind fun _ _ => ?_
  refine (admits_parameterName? v).bind fun _ hn => ?_
  exact admits_literalValue.bind fun _ hvalue => .pure ⟨hn, hvalue⟩

theorem admits_uncertainty : Admits d uncertainty fun _ => True := by
  refine .get_bind fun c _ => ?_
  refine .ite (admits_takeText.bind fun _ _ => .pure trivial) ?_
  refine admits_signedLiteral?.bind fun o _ => ?_
  split
  · exact .pure trivial
  · exact .pure trivial
  · exact admits_fail _

section Inner

variable {inner : Parser Expr} (hinner : Admits d inner (Expr.Meets d True))
include hinner

theorem admits_equation (op : AssignOp) : Admits d (equation inner op) (Equation.Meets d True) := by
  refine admits_advance.bind fun _ _ => ?_
  refine hinner.bind fun _ hbody => ?_
  refine (admits_expect _ _).bind fun _ _ => ?_
  refine (admits_takeIf _).bind fun _ _ => ?_
  exact .ite (admits_uncertainty.bind fun _ _ => .pure hbody) (.pure hbody)

/-! ### Expressions, operations apart -/

theorem admits_argument (v : Vocabulary) : Admits d (argument v inner) (Argument.Meets d True) := by
  refine .get_bind fun c hc => ?_
  have hexpr : Admits d (do return .expr (← inner)) (Argument.Meets d True) :=
    hinner.bind fun e he => .pure ⟨fun _ => hc.argument e, he⟩
  split
  · exact .pure trivial
  · exact .pure trivial
  · exact (admits_markedParameter v).bind fun _ hp => .pure hp
  · exact (admits_markedParameter v).bind fun _ hp => .pure hp
  · exact (admits_equation hinner _).bind fun _ he => .pure he
  · exact .ite hexpr (admits_fail _)
  · exact admits_fail _

theorem admits_arguments (v : Vocabulary) (limit : Nat) :
    Admits d (arguments v inner limit) (Argument.AllMeet d True) := by
  induction limit with
  | zero => exact .pure trivial
  | succ limit ih =>
    refine (admits_argument hinner v).bind fun _ ha => ?_
    refine (admits_takeIf _).bind fun _ _ => ?_
    refine .ite ?_ ?_
    · exact ih.bind fun _ has => .pure ⟨ha, has⟩
    · exact (admits_expect _ _).bind fun _ _ => .pure ⟨ha, trivial⟩

theorem admits_call (v : Vocabulary) {name : String} (hname : d.name name) (start : Nat) :
    Admits d (call v inner name start) (Expr.Meets d True) := by
  have hend : ∀ as, Argument.AllMeet d True as → Admits d
      (do return .call name as ⟨start, (← get).lastEnd⟩) (Expr.Meets d True) := fun as has =>
    .get_bind fun _ _ => .pure ⟨hname, has.mono fun _ => trivial⟩
  refine admits_advance.bind fun _ _ => (admits_takeIf _).bind fun closed _ => ?_
  cases closed with
  | true => exact hend [] trivial
  | false => exact .get_bind fun c _ => (admits_arguments hinner v _).bind hend

theorem admits_primary (v : Vocabulary) : Admits d (primary v inner) (Expr.Meets d True) := by
  refine .get_bind fun c hc => ?_
  have hliteral : Admits d (do return .literal (← literal false)) (Expr.Meets d True) :=
    (admits_literal false).bind fun _ hvalue => .pure fun _ => hvalue
  cases hpeek : c.peek? 0 with
  | none => exact admits_failExpected _
  | some t =>
    dsimp only
    split <;> rename_i hkind
    · exact hliteral
    · exact hliteral
    · exact hliteral
    · have hname := hc.name t (Cursor.mem_rest_of_peek? hpeek) (.inl hkind)
      exact admits_advance.bind fun _ _ => .ite (admits_call hinner v hname _) (.pure hname)
    · exact admits_advance.bind fun _ _ => .pure hc.mark
    · refine admits_advance.bind fun _ _ => ?_
      refine hinner.bind fun _ he => ?_
      exact (admits_expect _ _).bind fun _ _ => .pure he
    · exact admits_failExpected _

variable (hfree : ∀ e, d.operation e)
include hfree

omit hinner in
/-- A number with a minus that touches it, an operand with a sign, or one without. -/
theorem admits_signedOperand {operand : Parser Expr} (h : Admits d operand (Expr.Meets d True))
    (c : Cursor) : Admits d
      (if c.isAtNegativeLiteral then do
        advance
        return .literal (← literal true)
      else
        match c.sign? with
        | some op => do
          advance
          return .unary op (← operand)
        | none => operand) (Expr.Meets d True) := by
  refine .ite (admits_advance.bind fun _ _ => (admits_literal true).bind fun _ hvalue => .pure fun _ =>
    hvalue) ?_
  split
  · exact admits_advance.bind fun _ _ => h.bind fun _ he => .pure ⟨hfree _, he⟩
  · exact h

theorem admits_exponents (v : Vocabulary) (limit : Nat) {base : Expr} (hbase : base.Meets d True) :
    Admits d (exponents v inner limit base) (Expr.Meets d True) := by
  have hprimary := admits_primary hinner v
  induction limit generalizing base with
  | zero => exact .pure hbase
  | succ limit ih =>
    refine (admits_takeIf _).bind fun _ _ => .ite ?_ (.pure hbase)
    have hexponent : Admits d (exponent v inner) (Expr.Meets d True) :=
      .get_bind fun c _ => admits_signedOperand hfree hprimary c
    exact hexponent.bind fun e he => ih ⟨hfree _, hbase, he⟩

theorem admits_signed (v : Vocabulary) : Admits d (signed v inner) (Expr.Meets d True) := by
  have hpower : Admits d (power v inner) (Expr.Meets d True) := by
    refine (admits_primary hinner v).bind fun _ hbase => ?_
    refine .get_bind fun c _ => ?_
    exact admits_exponents hinner hfree v _ hbase
  exact .get_bind fun c _ => admits_signedOperand hfree hpower c

end Inner

theorem admits_grouped (hfree : ∀ e, d.operation e) {operand : Parser Expr}
    (h : Admits d operand (Expr.Meets d True)) (juxtapose : Bool) (level : Nat) :
    Admits d (grouped juxtapose level operand) (Expr.Meets d True) := by
  have hoperations : ∀ limit (lhs : Expr), lhs.Meets d True →
      Admits d (operations juxtapose level operand limit lhs) (Expr.Meets d True) := by
    intro limit
    induction limit with
    | zero => exact fun lhs hlhs => .pure hlhs
    | succ limit ih =>
      refine fun lhs hlhs => .get_bind fun c _ => ?_
      cases operation? juxtapose c with
      | none => exact .pure hlhs
      | some op =>
        have hskip : Admits d (skipSymbol op) fun _ => True := .ite (.pure trivial) admits_advance
        refine .ite ?_ ?_
        · refine hskip.bind fun _ _ => ?_
          exact h.bind fun rhs hrhs => ih _ ⟨hfree _, hlhs, hrhs⟩
        · exact .pure hlhs
  exact h.bind fun lhs hlhs => .get_bind fun c _ => hoperations _ lhs hlhs

theorem admits_expression_free (hfree : ∀ e, d.operation e) (v : Vocabulary) (levels : Nat)
    (juxtapose : Bool) : Admits d (expression v levels juxtapose) (Expr.Meets d True) := by
  induction levels generalizing juxtapose with
  | zero => exact admits_fail _
  | succ levels ih =>
    have hsigned := admits_signed (ih true) hfree v
    exact admits_grouped hfree (admits_grouped hfree (admits_grouped hfree hsigned _ 3) _ 2) _ 1

end Parser

/-! ### Operations -/

section Grammatical

variable {v : Vocabulary} {P : Expr → Prop}

mutual

/-- What is grammatical has grammatical operations in it. -/
theorem Expr.meets_of_grammatical (h : ∀ (j : Bool) (e : Expr), e.Grammatical v j → P e)
    {passed : Prop} : ∀ (e : Expr) {j : Bool}, e.Grammatical v j → e.Meets (.ofOperations P) passed
  | .literal value, _, _ => by
    intro _
    cases value <;> trivial
  | .ident _, _, _ => trivial
  | .call _ as _, _, hg => ⟨trivial, Argument.allMeet_of_grammatical h as hg.2.2⟩
  | .unary op operand, j, hg => ⟨h j _ hg, Expr.meets_of_grammatical h operand hg.2⟩
  | .binary op lhs rhs, j, hg =>
    ⟨h j _ hg, Expr.meets_of_grammatical h lhs hg.2.1, Expr.meets_of_grammatical h rhs hg.2.2⟩
  | .paren inner, _, hg => Expr.meets_of_grammatical h inner hg

theorem Argument.allMeet_of_grammatical (h : ∀ (j : Bool) (e : Expr), e.Grammatical v j → P e)
    {passed : Prop} : ∀ as : List Argument, Argument.AllGrammatical v as →
      Argument.AllMeet (.ofOperations P) passed as
  | [], _ => trivial
  | a :: as, hg => ⟨Argument.meets_of_grammatical h a hg.1, Argument.allMeet_of_grammatical h as hg.2⟩

theorem Argument.meets_of_grammatical (h : ∀ (j : Bool) (e : Expr), e.Grammatical v j → P e)
    {passed : Prop} : ∀ a : Argument, a.Grammatical v → a.Meets (.ofOperations P) passed
  | .hole, _ => trivial
  | .parameter ⟨_, _, value⟩, hg => by
    refine ⟨fun _ _ => trivial, ?_⟩
    cases value with
    | absent => trivial
    | literal value =>
      intro _
      cases value <;> trivial
    | equation e => exact hg.2.2.elim
  | .expr e, hg => ⟨fun _ => trivial, Expr.meets_of_grammatical h e hg⟩
  | .equation ⟨_, body, _⟩, hg => Expr.meets_of_grammatical h body hg.1

end

end Grammatical

namespace Parser

variable {α : Type} {d : Demands}

/-- **The names and strings in an expression** are words and strings of the tokens, and its operations are
grouped as the grammar says. -/
theorem admits_expression (v : Vocabulary) (levels : Nat) (juxtapose : Bool) :
    Admits d (expression v levels juxtapose) (Expr.Meets d True) := by
  intro c hc
  let free : Demands := { d with operation := fun _ => True }
  have hstep := admits_expression_free (d := free) (fun _ => trivial) v levels juxtapose c
    { hc with operation := fun _ _ _ _ => trivial }
  cases hrun : expression v levels juxtapose c with
  | ok e c' =>
    rw [hrun] at hstep
    have hgenuine : c.Genuine := by
      intro l hl
      obtain ⟨t, ht, rfl⟩ := List.mem_map.1 hl
      exact hc.genuine t ht
    have hgrammatical := (ensures_expression hgenuine levels e c' hrun).1.grammatical
    refine ⟨{ hstep.1 with operation := hc.operation }, ?_⟩
    have hoperations : e.Meets (.ofOperations d.operation) True :=
      e.meets_of_grammatical (fun j e => hc.operation v j e) hgrammatical
    have hentails : free.Entails (.ofOperations d.operation) d :=
      ⟨fun _ hn _ => hn, fun _ ht _ => ht, fun _ he _ => he, fun _ _ he => he,
        fun _ => Iff.of_eq (and_true _).symm⟩
    exact e.meets_entails hentails (fun _ => ⟨trivial, trivial⟩) hstep.2 hoperations
  | error fault c' =>
    rw [hrun] at hstep
    exact { hstep with operation := hc.operation }

/-! ### Statements -/

section Statements

variable {expr : Parser Expr} (hexpr : Admits d expr (Expr.Meets d True))
include hexpr

theorem admits_declaration (scope : Scope) (kind : VariableScope) :
    Admits d (declaration expr scope kind) (ItemKind.Meets d) := by
  refine admits_advance.bind fun _ _ => ?_
  refine admits_refinement.bind fun mark _ => ?_
  refine (admits_name _).bind fun n hn => ?_
  refine .get_bind fun c _ => ?_
  have hrest : ∀ value : Value, value.Meets d True → Admits d
      (if (value.isPresent || scope.inMacro) = true then
          pure (ItemKind.declaration kind ⟨mark, some n, value⟩)
        else failExpected (.valueOf n) : Parser ItemKind) (ItemKind.Meets d) := fun value hvalue =>
    .ite (.pure ⟨by rintro _ ⟨⟩; exact hn, hvalue.mono False.elim⟩) (admits_failExpected _)
  refine .ite ?_ ?_
  · exact (admits_equation hexpr _).bind fun e he => hrest (.equation e) he
  · exact admits_literalValue.bind hrest

theorem admits_existing : Admits d (existing expr) (ItemKind.Meets d) := by
  refine admits_advance.bind fun _ _ => ?_
  refine admits_refinement.bind fun _ _ => ?_
  refine (admits_name _).bind fun _ _ => ?_
  refine .get_bind fun c _ => ?_
  split
  · exact (admits_equation hexpr _).bind fun _ he => .pure (he.mono False.elim)
  · exact admits_failExpected _

theorem admits_valueSlot (v : Vocabulary) (scope : Scope) (fixed : Bool) :
    Admits d (valueSlot v expr scope fixed) (Parameter.Meets d False) := by
  refine .get_bind fun c _ => .ite ?_ ?_
  · exact (admits_equation hexpr _).bind fun _ he => .pure ⟨by rintro _ ⟨⟩, he.mono False.elim⟩
  · refine admits_refinement.bind fun mark _ => ?_
    exact .ite (admits_failAt _ _) <| (admits_parameterName? v).bind fun n hn =>
      admits_literalValue.bind fun value hvalue => .ite (.pure ⟨hn, hvalue.mono False.elim⟩)
      (admits_failExpected _)

end Statements

section Slots

variable {slot : Parser Parameter} (hslot : Admits d slot (Parameter.Meets d False))
include hslot

theorem admits_occupancy (wordEnd : Nat) : Admits d (occupancy slot wordEnd)
    fun o => o.value.Meets d False ∧ ∀ m ∈ o.modifiers, m.value.Meets d False := by
  have hmodifiers : ∀ limit, Admits d (occModifiers slot limit)
      fun ms => ∀ m ∈ ms, m.value.Meets d False := by
    intro limit
    induction limit with
    | zero => exact .pure (List.forall_mem_nil _)
    | succ limit ih =>
      refine .get_bind fun c _ => ?_
      split
      · refine admits_advance.bind fun _ _ => ?_
        refine hslot.bind fun value hvalue => ?_
        refine ih.bind fun ms hms => ?_
        exact .pure (List.forall_mem_cons.2 ⟨hvalue, hms⟩)
      · exact .pure (List.forall_mem_nil _)
  refine (admits_freeWord? _).bind fun atom _ => ?_
  cases atom with
  | none => exact admits_failAt _ _
  | some atom =>
    refine hslot.bind fun value hvalue => ?_
    refine .get_bind fun c _ => ?_
    exact (hmodifiers _).bind fun ms hms => .pure ⟨hvalue, hms⟩

theorem admits_adps (words : Adps AdpWord) :
    Admits d (words.mapM (adp slot)) fun ps => ∀ p ∈ ps.toList, p.Meets d False := by
  have hadp : ∀ word, Admits d (adp slot word) (Parameter.Meets d False) := fun word =>
    .get_bind fun c _ => .ite (admits_advance.bind fun _ _ => hslot) (admits_failExpected _)
  refine (hadp _).bind fun p h => ?_
  refine (hadp _).bind fun p₂ h₂ => ?_
  refine (hadp _).bind fun p₃ h₃ => ?_
  refine (hadp _).bind fun p₄ h₄ => ?_
  refine (hadp _).bind fun p₅ h₅ => ?_
  refine (hadp _).bind fun p₆ h₆ => .pure ?_
  simpa [Adps.toList] using ⟨h, h₂, h₃, h₄, h₅, h₆⟩

end Slots

theorem admits_siteStatement (v : Vocabulary) {expr : Parser Expr}
    (hexpr : Admits d expr (Expr.Meets d True)) (scope : Scope) (word : SiteWord) :
    Admits d (siteStatement v expr scope word) (ItemKind.Meets d) := by
  have hslot := admits_valueSlot hexpr v scope
  refine .get_bind fun c _ => admits_advance.bind fun _ _ => ?_
  cases word with
  | axis a => exact (hslot false).bind fun p hp => .pure (List.forall_mem_singleton.2 hp)
  | occ =>
    refine (admits_occupancy (hslot false) _).bind fun o ho => .pure ?_
    exact List.forall_mem_cons.2 ⟨ho.1, List.forall_mem_map.2 ho.2⟩
  | scalar s => exact (hslot s.isFixed).bind fun p hp => .pure (List.forall_mem_singleton.2 hp)
  | adps => exact (admits_adps (hslot false) _).bind fun ps hps => .pure hps
  | occupancy w => exact admits_failAt _ _
  | adp u => exact admits_failAt _ _

theorem admits_wordItem (v : Vocabulary) (levels : Nat) (scope : Scope) (word : String) :
    Admits d (wordItem v levels scope word) (ItemKind.Meets d) := by
  have hinner := admits_expression (d := d) v levels true
  have hexpr : Admits d (do return .expr (← expression v levels false)) (ItemKind.Meets d) :=
    (admits_expression v levels false).bind fun _ he => .pure he
  refine .get_bind fun c _ => .ite hexpr ?_
  split
  · exact admits_siteStatement v hinner scope _
  · refine .ite (admits_advance.bind fun _ _ => .get_bind fun c _ => .ite ?_ ?_) ?_
    · exact (admits_equation hinner _).bind fun e he =>
        .pure (by rintro _ ⟨⟩; exact he.mono False.elim)
    · exact .pure (by rintro _ ⟨⟩)
    · split
      · refine admits_advance.bind fun _ _ => ?_
        refine (admits_equation hinner _).bind fun e he => ?_
        exact .pure (he.mono False.elim)
      · exact hexpr

/-! ### Heads, directives and conditions -/

theorem admits_signature : Admits d signature fun _ => True := by
  have hparams : ∀ limit, Admits d (macroParams limit) fun _ => True := by
    intro limit
    induction limit with
    | zero => exact .pure trivial
    | succ limit ih =>
      have hrest : ∀ p : MacroParam, Admits d (do
          if ← takeIf (.mark .comma) then return p :: (← macroParams limit)
          else
            expect (.mark .closeParen) .parametersEnd
            return [p]) fun _ => True := by
        intro p
        refine (admits_takeIf _).bind fun comma _ => .ite ?_ ?_
        · exact ih.bind fun _ _ => .pure trivial
        · exact (admits_expect _ _).bind fun _ _ => .pure trivial
      refine (admits_takeIf _).bind fun byReference _ => ?_
      refine .get_bind fun c _ => ?_
      refine .ite ?_ (hrest ⟨none, byReference⟩)
      exact admits_takeText.bind fun n _ => hrest ⟨some n, byReference⟩
  have hlist : Admits d macroParamList fun _ => True := by
    refine admits_advance.bind fun _ _ => (admits_takeIf _).bind fun closed _ => ?_
    exact .ite (.pure trivial) (.get_bind fun c _ => hparams _)
  refine .get_bind fun c _ => ?_
  refine (admits_takeIf _).bind fun _ _ => ?_
  refine .get_bind fun c _ => ?_
  refine .ite (admits_takeText.bind fun n _ => .get_bind fun c _ => ?_) (admits_failExpected _)
  have hend : ∀ g : Cursor → Signature, Admits d (do return g (← get)) fun _ => True :=
    fun g => .get_bind fun _ _ => .pure trivial
  have hnone : Admits d (pure [] : Parser (List MacroParam)) fun _ => True := .pure trivial
  exact .ite (hlist.bind fun _ _ => hend _) (hnone.bind fun _ _ => hend _)

theorem admits_signatures (limit : Nat) : Admits d (signatures limit) fun _ => True := by
  induction limit with
  | zero => exact .pure trivial
  | succ limit ih =>
    refine admits_signature.bind fun _ _ => ?_
    refine (admits_takeIf _).bind fun _ _ => ?_
    refine .get_bind fun c _ => ?_
    exact .ite (ih.bind fun _ _ => .pure trivial) (.pure trivial)

theorem admits_exprCondition {expr : Parser Expr} (hexpr : Admits d expr (Expr.Meets d True)) :
    Admits d (exprCondition expr) (Condition.Meets d) := by
  refine (admits_takeIf _).bind fun _ _ => ?_
  refine hexpr.bind fun _ he => ?_
  refine (admits_expect _ _).bind fun _ _ => ?_
  exact .pure (he.mono False.elim)

theorem admits_openingCondition {expr : Parser Expr} (hexpr : Admits d expr (Expr.Meets d True))
    (word : DirectiveWord) : Admits d (openingCondition expr word) (Condition.Meets d) := by
  have htest : Admits d argumentTest fun _ => True := by
    refine .get_bind fun c _ => ?_
    split
    · exact admits_advance.bind fun _ _ => .pure trivial
    · exact admits_takeText.bind fun _ _ => .pure trivial
    · exact admits_failExpected _
  refine admits_advance.bind fun _ _ => ?_
  split
  · exact (admits_takeIf _).bind fun _ _ => (admits_name _).bind fun _ _ => .pure trivial
  · exact (admits_name _).bind fun _ _ => .pure trivial
  · exact (admits_name _).bind fun _ _ => htest.bind fun _ _ => .pure trivial
  · exact admits_exprCondition hexpr

theorem admits_plainDirective? (v : Vocabulary) (levels : Nat) (word : DirectiveWord) :
    ∀ p ∈ plainDirective? v levels word, Admits d p (Directive.Meets d) := by
  have hinclude : Admits d includePath fun _ => True :=
    .get_bind fun c _ => .ite (admits_takeText.bind fun _ _ => .pure trivial) (admits_failExpected _)
  have hnames : ∀ limit, Admits d (deletedNames limit) fun _ => True := by
    intro limit
    induction limit with
    | zero => exact .pure trivial
    | succ limit ih =>
      refine .get_bind fun c _ => .ite ?_ (.pure trivial)
      refine admits_takeText.bind fun _ _ => ?_
      refine (admits_takeIf _).bind fun _ _ => ?_
      exact ih.bind fun _ _ => .pure trivial
  intro p hp
  cases word <;> cases hp
  case includeFile =>
    exact admits_advance.bind fun _ _ => hinclude.bind fun _ _ => .pure trivial
  case deleteMacros =>
    refine admits_advance.bind fun _ _ => ?_
    refine (admits_expect _ _).bind fun _ _ => ?_
    refine .get_bind fun c _ => ?_
    refine (hnames _).bind fun _ _ => ?_
    exact (admits_expect _ _).bind fun _ _ => .pure trivial
  case define => exact admits_advance.bind fun _ _ => (admits_name _).bind fun _ hn => .pure hn
  case undef => exact admits_advance.bind fun _ _ => (admits_name _).bind fun _ _ => .pure trivial
  case seed => exact admits_advance.bind fun _ _ => .pure trivial
  case prm =>
    refine admits_advance.bind fun _ _ => ?_
    refine (admits_name _).bind fun n hn => ?_
    refine .get_bind fun c _ => ?_
    refine .ite ?_ (admits_failExpected _)
    exact (admits_equation (admits_expression v levels true) _).bind fun e he =>
      .pure ⟨hn, he.mono False.elim⟩
  case out =>
    refine admits_advance.bind fun _ _ => ?_
    refine (admits_expression v levels false).bind fun _ he => ?_
    exact .pure (he.mono False.elim)

end Parser

/-! ### Items -/

/-- From tokens that the demands admit the parser leads to such ones; and `Q` holds of what is read. -/
abbrev ItemParser.Admits {α : Type} (d : Demands) (p : ItemParser α) (Q : α → Prop) : Prop :=
  Maintains (fun r : Reading => d.Admits r.cursor.rest) p Q

/-- The same of a parser that cannot fail. -/
abbrev ItemParser.Gathers {α : Type} (d : Demands) (p : StateM Reading α) (Q : α → Prop) : Prop :=
  Maintained (fun r : Reading => d.Admits r.cursor.rest) p Q

namespace ItemParser

variable {α β : Type} {d : Demands}

theorem admits_lift {p : Parser α} {Q : α → Prop} (h : Parser.Admits d p Q) :
    Admits d (liftM p : ItemParser α) Q := by
  intro r hr
  have hstep := h r.cursor hr
  cases hrun : p r.cursor with
  | ok a c =>
    rw [hrun] at hstep
    simpa only [liftM, monadLift, MonadLift.monadLift, hrun] using hstep
  | error fault c =>
    rw [hrun] at hstep
    simpa only [liftM, monadLift, MonadLift.monadLift, hrun] using hstep

theorem admits_cursor_bind {f : Cursor → ItemParser β} {Q : β → Prop}
    (h : ∀ c : Cursor, d.Admits c.rest → Admits d (f c) Q) : Admits d (cursor >>= f) Q :=
  fun r hr => h r.cursor hr r hr

theorem admits_report (fault : Diagnostic) : Admits d (report fault) fun _ => True :=
  fun _ hr => ⟨hr, trivial⟩

theorem admits_advance : Admits d advance fun _ => True :=
  fun r hr => ⟨hr.of_subset r.cursor.rest_advance_subset, trivial⟩

/-- All items meet the demands. -/
abbrev AllMeet (d : Demands) (is : List Item) : Prop := ∀ i ∈ is, i.Everywhere (Item.Meets d)

abbrev Meets? (d : Demands) (o : Option Item) : Prop := ∀ i ∈ o, i.Everywhere (Item.Meets d)

abbrev KindMeets? (d : Demands) (o : Option ItemKind) : Prop :=
  ∀ k ∈ o, k.Meets d ∧ k.Everywhere (Item.Meets d)

section Sequences

variable {one : ItemParser (Option Item)} (hone : Admits d one (Meets? d))
include hone

theorem admits_attempt : Gathers d (attempt one) (Meets? d) := by
  intro r hr
  have hstep := hone r hr
  unfold attempt
  cases hrun : one r with
  | ok item r' =>
    rw [hrun] at hstep
    exact hstep
  | error fault r' =>
    rw [hrun] at hstep
    exact ⟨hstep.of_subset r'.cursor.rest_recover_subset, by rintro _ ⟨⟩⟩

omit hone in
theorem meets_append {o : Option Item} {is : List Item} (ho : Meets? d o) (his : AllMeet d is) :
    AllMeet d (o.toList ++ is) := by
  intro i hi
  rcases List.mem_append.1 hi with hi | hi
  · exact ho i (Option.mem_toList.1 hi)
  · exact his i hi

theorem admits_allItems (stop : TokenKind → Bool) :
    Gathers d (allItems one stop) (AllMeet d) := by
  have hitems : ∀ limit, Gathers d (items one stop limit) (AllMeet d) := by
    intro limit
    induction limit with
    | zero => exact .pure (List.forall_mem_nil _)
    | succ limit ih =>
      refine Maintained.get.bind fun before _ => ?_
      split
      · exact .pure (List.forall_mem_nil _)
      · refine .ite (.pure (List.forall_mem_nil _)) ?_
        refine (admits_attempt hone).bind fun o ho => Maintained.get.bind fun r _ => ?_
        have hrest : Gathers d (do return o.toList ++ (← items one stop limit)) (AllMeet d) :=
          ih.bind fun is his => .pure (meets_append ho his)
        have hskip : Gathers d (modify Reading.advance) fun _ => True :=
          fun r hr => ⟨hr.of_subset r.cursor.rest_advance_subset, trivial⟩
        exact .ite (hskip.bind fun _ _ => hrest) hrest
  exact Maintained.get.bind fun r _ => hitems _

theorem admits_members (limit : Nat) : Gathers d (members one limit) (AllMeet d) := by
  induction limit with
  | zero => exact .pure (List.forall_mem_nil _)
  | succ limit ih =>
    refine Maintained.get.bind fun before _ => .ite ?_ (.pure (List.forall_mem_nil _))
    refine (admits_attempt hone).bind fun o ho => ?_
    refine Maintained.get.bind fun r _ => ?_
    refine .ite ?_ ?_
    · exact .pure fun i hi => ho i (Option.mem_toList.1 hi)
    · exact ih.bind fun is his => .pure (meets_append ho his)

end Sequences

theorem admits_located {kind : ItemParser (Option ItemKind)} (h : Admits d kind (KindMeets? d)) :
    Admits d (located kind) (Meets? d) := by
  refine admits_cursor_bind fun c _ => h.bind fun o ho => ?_
  cases o with
  | none => exact .pure (by rintro _ ⟨⟩)
  | some k =>
    refine admits_cursor_bind fun c _ => .pure ?_
    rintro _ ⟨⟩
    exact Item.everywhere_iff.2 (ho k rfl)

theorem admits_site {member : ItemParser (Option Item)} (h : Admits d member (Meets? d)) :
    Admits d (site member) fun k => KindMeets? d (some k) := by
  refine admits_cursor_bind fun c _ => ?_
  refine admits_advance.bind fun _ _ => ?_
  refine (admits_lift (Parser.admits_freeWord? _)).bind fun n _ => ?_
  cases n with
  | none => exact .throw _
  | some n =>
    refine admits_cursor_bind fun c _ => Maintains.bind (admits_members h _) fun is his => .pure ?_
    rintro _ ⟨⟩
    exact ⟨trivial, Item.allEverywhere_iff.2 his⟩

/-! ### Conditionals, macros and blocks -/

section Bodies

variable {body : StateM Reading (List Item)} (hbody : Gathers d body (AllMeet d))
include hbody

omit hbody in
theorem admits_closeChain (opening : Opening) : Admits d (closeChain opening) fun _ => True := by
  refine admits_cursor_bind fun c _ => ?_
  split
  · exact .ite admits_advance ((admits_report _).bind fun _ _ => admits_advance)
  · exact .ite (.pure trivial) (admits_report _)
  · exact admits_report _

theorem admits_laterBranches (opening : Opening) {expr : Parser Expr}
    (hexpr : Parser.Admits d expr (Expr.Meets d True)) (limit : Nat) :
    Admits d (laterBranches opening expr body limit)
      fun c => c.Meets d ∧ c.Everywhere (Item.Meets d) := by
  have hclose : Admits d (do closeChain opening; return .done : ItemParser Chain)
      fun c => c.Meets d ∧ c.Everywhere (Item.Meets d) :=
    (admits_closeChain opening).bind fun _ _ => .pure ⟨trivial, trivial⟩
  induction limit with
  | zero => exact .pure ⟨trivial, trivial⟩
  | succ limit ih =>
    refine admits_cursor_bind fun c _ => ?_
    split
    · refine .ite (admits_advance.bind fun _ _ => (admits_lift (Parser.admits_exprCondition hexpr)).bind
        fun condition hcondition => ?_) hclose
      refine Maintains.bind hbody fun is his => ?_
      refine ih.bind fun rest hrest => ?_
      exact .pure ⟨⟨hcondition, hrest.1⟩, Item.allEverywhere_iff.2 his, hrest.2⟩
    · refine .ite (admits_advance.bind fun _ _ => ?_) hclose
      refine Maintains.bind hbody fun is his => ?_
      refine (admits_closeChain opening).bind fun _ _ => ?_
      exact .pure ⟨trivial, Item.allEverywhere_iff.2 his⟩
    · exact hclose

theorem admits_conditional (family : Family) (word : DirectiveWord) {expr : Parser Expr}
    (hexpr : Parser.Admits d expr (Expr.Meets d True)) :
    Admits d (conditional family word expr body) fun k => KindMeets? d (some k) := by
  refine admits_cursor_bind fun c _ => ?_
  refine (admits_lift (Parser.admits_openingCondition hexpr word)).bind fun condition hcondition => ?_
  refine Maintains.bind hbody fun is his => ?_
  refine admits_cursor_bind fun c _ => ?_
  refine (admits_laterBranches hbody _ hexpr _).bind fun rest hrest => .pure ?_
  rintro _ ⟨⟩
  exact ⟨⟨hcondition, hrest.1⟩, Item.allEverywhere_iff.2 his, hrest.2⟩

theorem admits_block : Admits d (block body) fun k => KindMeets? d (some k) := by
  refine admits_cursor_bind fun c _ => ?_
  refine admits_advance.bind fun _ _ => ?_
  refine Maintains.bind hbody fun is his => ?_
  refine (admits_lift (Parser.admits_takeIf _)).bind fun closed _ => ?_
  refine .ite (.pure ?_) (.throw _)
  rintro _ ⟨⟩
  exact ⟨trivial, Item.allEverywhere_iff.2 his⟩

theorem admits_macroDecl (isList : Bool) :
    Admits d (macroDecl isList body) fun k => KindMeets? d (some k) := by
  have hrest : ∀ signatures, Admits d (do
      let opening := (← cursor).here
      Parser.expect (.mark .openBrace) .bodyStart
      let items ← body
      if !(← takeIf (.mark .closeBrace)) then report ⟨.unclosedMacro, opening⟩
      return .macroDecl isList signatures items : ItemParser ItemKind)
      fun k => KindMeets? d (some k) := by
    intro signatures
    refine admits_cursor_bind fun c hc => ?_
    refine (admits_lift (Parser.admits_expect _ _)).bind fun _ _ => ?_
    refine Maintains.bind hbody fun is his => ?_
    refine (admits_lift (Parser.admits_takeIf _)).bind fun closed _ => ?_
    have hend : Admits d (Pure.pure (.macroDecl isList signatures is) : ItemParser ItemKind)
        fun k => KindMeets? d (some k) := by
      refine .pure ?_
      rintro _ ⟨⟩
      exact ⟨fun _ _ n _ => hc.callee n, Item.allEverywhere_iff.2 his⟩
    exact .ite ((admits_report _).bind fun _ _ => hend) hend
  refine admits_advance.bind fun _ _ => ?_
  split
  · refine admits_cursor_bind fun c _ => ?_
    exact (admits_lift (Parser.admits_signatures _)).bind fun signatures _ => hrest signatures
  · exact (admits_lift Parser.admits_signature).bind fun s _ => hrest [s]

end Bodies

/-! ### Items of one level -/

theorem admits_leafKind {p : Parser α} {k : α → ItemKind} {Q : α → Prop} (h : Parser.Admits d p Q)
    (hk : ∀ a, Q a → (k a).Meets d ∧ (k a).Everywhere (Item.Meets d)) :
    Admits d (do return some (k (← p)) : ItemParser (Option ItemKind)) (KindMeets? d) := by
  refine (admits_lift h).bind fun a ha => .pure ?_
  rintro _ ⟨⟩
  exact hk a ha

/-- A statement has no items in it. -/
theorem admits_statement {p : Parser ItemKind} (h : Parser.Admits d p (ItemKind.Meets d))
    (hsimple : ∀ c, Parser.Ensures p c fun k _ => k.IsSimple) :
    Admits d (do return some (← p) : ItemParser (Option ItemKind)) (KindMeets? d) := by
  have hboth : Parser.Admits d p fun k => k.Meets d ∧ k.Everywhere (Item.Meets d) := by
    intro c hc
    have hstep := h c hc
    cases hrun : p c with
    | ok k c' =>
      rw [hrun] at hstep
      exact ⟨hstep.1, hstep.2, hsimple c k c' hrun _⟩
    | error fault c' =>
      rw [hrun] at hstep
      exact hstep
  exact admits_leafKind (k := id) hboth fun _ hk => hk

theorem admits_some {p : ItemParser ItemKind} (h : Admits d p fun k => KindMeets? d (some k)) :
    Admits d (do return some (← p)) (KindMeets? d) := h.bind fun _ hk => .pure hk

theorem admits_nested {deeper : Deeper} {parse : (Scope → ItemParser (Option Item)) → ItemParser α}
    {Q : α → Prop} (h : ∀ next ∈ deeper, Admits d (parse next) Q) :
    Admits d (nested deeper parse) Q := by
  cases deeper with
  | none => exact admits_lift (Parser.admits_fail _)
  | some next => exact h next rfl

theorem admits_unexpected (scope : Scope) : Admits d (unexpected scope) (KindMeets? d) := by
  refine admits_cursor_bind fun _ _ => ?_
  refine (admits_report _).bind fun _ _ => ?_
  exact admits_advance.bind fun _ _ => .pure (by rintro _ ⟨⟩)

section Level

variable (v : Vocabulary) (levels : Nat) {deeper : Deeper} (scope : Scope)
variable (hdeeper : ∀ next ∈ deeper, ∀ scope : Scope, Admits d (next scope) (Meets? d))
include hdeeper

theorem admits_directiveAnywhere (word : DirectiveWord) :
    Admits d (directiveAnywhere v levels deeper scope word) (KindMeets? d) := by
  have hconditional : ∀ family, Admits d (nested deeper fun next => do
      return some (← conditional family word (Parser.expression v (levels - 1) true)
        (allItems (next scope) endsBranch))) (KindMeets? d) := fun family =>
    admits_nested fun next hnext => admits_some (admits_conditional
      (admits_allItems (hdeeper next hnext scope) endsBranch) family word
      (Parser.admits_expression v _ true))
  unfold directiveAnywhere
  dsimp only
  cases hplain : Parser.plainDirective? v levels word with
  | some p =>
    exact admits_leafKind (k := .directive) (Parser.admits_plainDirective? v levels word p hplain)
      fun _ hw => ItemKind.IsLeaf.allMeet trivial hw
  | none =>
    dsimp only
    split
    · exact hconditional _
    · exact hconditional _
    · exact hconditional _
    · exact hconditional _
    · exact hconditional _
    · exact admits_advance.bind fun _ _ => admits_leafKind (Parser.admits_name _)
        fun _ _ => ⟨trivial, trivial⟩
    · exact admits_leafKind (Parser.admits_expression v levels false) fun _ he => ⟨he, trivial⟩
    · refine admits_cursor_bind fun _ _ => ?_
      refine (admits_report _).bind fun _ _ => ?_
      exact admits_advance.bind fun _ _ => .pure (by rintro _ ⟨⟩)
    · exact admits_unexpected scope

theorem admits_leaf (t : Token) : Admits d (leaf v levels deeper scope t) (KindMeets? d) := by
  have hinner := Parser.admits_expression (d := d) v levels true
  have hmacro : ∀ isList, Admits d (macroItem deeper scope isList) (KindMeets? d) := fun isList =>
    admits_cursor_bind fun _ _ => (admits_nested fun next hnext => admits_macroDecl
      (admits_allItems (hdeeper next hnext _) _) isList).bind fun k hk =>
        .ite ((admits_report _).bind fun _ _ => .pure (by rintro _ ⟨⟩)) (.pure hk)
  have hdirective : ∀ word, Admits d (directive v levels deeper scope word) (KindMeets? d) := by
    intro word
    refine admits_cursor_bind fun _ _ => ?_
    refine (admits_directiveAnywhere v levels scope hdeeper word).bind fun o ho => ?_
    exact .ite ((admits_report _).bind fun _ _ => .pure (by rintro _ ⟨⟩)) (.pure ho)
  unfold leaf
  dsimp only
  split
  · exact admits_statement (Parser.admits_declaration hinner scope _)
      fun _ => Parser.isSimple_declaration _ scope _
  · exact admits_statement (Parser.admits_declaration hinner scope _)
      fun _ => Parser.isSimple_declaration _ scope _
  · exact admits_statement (Parser.admits_existing hinner) fun _ => Parser.isSimple_existing _
  · exact hmacro false
  · exact hmacro true
  · exact hdirective _
  · exact admits_leafKind (k := .parameter) (Parser.admits_markedParameter v)
      fun _ hp => ⟨hp.mono False.elim, trivial⟩
  · exact admits_leafKind (k := .parameter) (Parser.admits_markedParameter v)
      fun _ hp => ⟨hp.mono False.elim, trivial⟩
  · exact admits_leafKind (k := .equation) (Parser.admits_equation hinner _)
      fun _ he => ⟨he.mono False.elim, trivial⟩
  · exact admits_statement (Parser.admits_wordItem v levels scope _)
      fun _ => Parser.isSimple_wordItem v levels scope t.text
  · exact (admits_report _).bind fun _ _ => admits_advance.bind fun _ _ => .pure (by rintro _ ⟨⟩)
  · refine .ite (admits_nested fun next hnext => ?_) (.ite ?_ (admits_unexpected scope))
    · exact admits_some (admits_block (admits_allItems (hdeeper next hnext _) _))
    · exact admits_leafKind (k := .expr) (Parser.admits_expression v levels false)
        fun _ he => ⟨he, trivial⟩

theorem admits_itemKind : Admits d (itemKind v levels deeper scope) (KindMeets? d) := by
  refine admits_cursor_bind fun c _ => ?_
  split
  · exact admits_unexpected scope
  · refine .ite (admits_some (admits_site (admits_located (admits_cursor_bind fun c _ => ?_))))
      (admits_leaf v levels scope hdeeper _)
    cases c.peek? 0 with
    | none => exact .pure (by rintro _ ⟨⟩)
    | some t => exact admits_leaf v levels _ hdeeper t

end Level

/-- An item, at any level of nesting. -/
theorem admits_item (v : Vocabulary) (levels : Nat) (scope : Scope) :
    Admits d (item v levels scope) (Meets? d) := by
  induction levels generalizing scope with
  | zero => exact admits_located (admits_itemKind v 0 scope (by rintro _ ⟨⟩))
  | succ levels ih =>
    refine admits_located (admits_itemKind v (levels + 1) scope ?_)
    rintro next ⟨⟩ scope
    exact ih scope

end ItemParser

/-- **What holds of all words and strings of a text holds of what is read from it.** -/
theorem Parsed.items_written (v : Vocabulary) (text : String) {d : Demands}
    (hname : ∀ t ∈ (TokenStream.ofText text).tokens, t.kind = .ident ∨ t.kind = .directive .unique →
      d.name t.text)
    (htext : ∀ t ∈ (TokenStream.ofText text).tokens, t.kind = .string → d.text (unquote t.text))
    (hmark : d.name uniqueMark) (hcallee : ∀ n, d.callee n) (hargument : ∀ e, d.argument e)
    (hoperation : ∀ (v : Vocabulary) (j : Bool) (e : Expr), e.Grammatical v j → d.operation e) :
    ∀ i ∈ (ofText v text).items, i.Everywhere (Item.Meets d) := by
  refine (ItemParser.admits_allItems (ItemParser.admits_item v maxNesting _) _ _ ⟨fun t ht => ?_, hname,
    htext, hmark, hcallee, hargument, hoperation⟩).2
  obtain ⟨hmem, hsignificant⟩ := List.mem_filter.1 ht
  exact lexesAs_of_mem_scan hmem hsignificant

end ControlFile
