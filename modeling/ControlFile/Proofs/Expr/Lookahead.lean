import ControlFile.Expr.Parser
import ControlFile.Proofs.Token.Lexeme

/-!
# What a parser sees

A parser looks at the lexemes ahead and at nothing else.  Each question that it asks of a cursor is
put here to the row of lexemes ahead, so that a run on one text can be compared with a run on
another text with the same lexemes.

* `Parser.Gives p c Q`: at `c` the parser succeeds, and `Q` holds of its result and of where it
  stops.
* `Parser.Ensures p c Q`: if the parser succeeds at `c`, then `Q` holds.

Both are read off a sequence of parsers step by step (`Gives.bind`, `Ensures.bind`).
-/

namespace ControlFile

/-! ### Rows of lexemes -/

/-- The lexemes ahead of a cursor. -/
def Cursor.lexemes (c : Cursor) : List Lexeme := c.rest.map Token.lexeme

namespace Lexeme

/-- What the first lexeme is. -/
def kind? (ls : List Lexeme) : Option TokenKind := ls.head?.map (·.kind)

/-- At a minus that touches a number. -/
def startsMinusNumber : List Lexeme → Bool
  | l :: n :: _ => l.kind == .operator .sub && n.kind.isNumber && !n.spaced
  | _ => false

/-- At a power sign. -/
def startsPower (ls : List Lexeme) : Bool := kind? ls == some (.operator .pow)

/-- At a name with an opening parenthesis that touches it, the name being the first lexeme. -/
def startsCall : List Lexeme → Bool
  | _ :: p :: _ => p.kind == .mark .openParen && !p.spaced
  | _ => false

/-- Behind a name that is no call: a parenthesis that touches the name would make it one. -/
def IsLoose (ls : List Lexeme) : Prop :=
  ∀ l, ls.head? = some l → l.kind = .mark .openParen → l.spaced = true

/-- At the end, or with space before the first lexeme. -/
def IsSpaced (ls : List Lexeme) : Prop := ∀ l, ls.head? = some l → l.spaced = true

theorem IsSpaced.isLoose {ls : List Lexeme} (h : IsSpaced ls) : IsLoose ls := fun l hl _ => h l hl

/-- At a minus that touches a number and has space before it. -/
def startsDetached (ls : List Lexeme) : Bool :=
  startsMinusNumber ls && (ls.head?.map (·.spaced)).getD true

/-- The operation that a token goes on with; `detached` says that it is a minus which belongs to
the number behind it. -/
def operationOf? (juxtapose detached : Bool) : TokenKind → Option BinaryOp
  | .operator op =>
    if op = .pow ∨ op = .juxtaposed ∨ op = .sub ∧ juxtapose = false ∧ detached = true then none
    else some op
  | kind => if juxtapose && kind.startsOperand then some .juxtaposed else none

/-- The operation that goes on at a row. -/
def operation? (juxtapose : Bool) (ls : List Lexeme) : Option BinaryOp :=
  (kind? ls).bind (operationOf? juxtapose (startsDetached ls))

@[simp] theorem kind?_nil : kind? [] = none := rfl

@[simp] theorem kind?_cons (l : Lexeme) (ls : List Lexeme) : kind? (l :: ls) = some l.kind := rfl

theorem isLoose_cons {l : Lexeme} (ls : List Lexeme) (h : l.kind ≠ .mark .openParen) :
    IsLoose (l :: ls) := by
  intro m hm hk
  simp only [List.head?_cons, Option.some.injEq] at hm
  exact absurd (hm ▸ hk) h

theorem isSpaced_cons (kind : TokenKind) (text : String) (ls : List Lexeme) :
    IsSpaced (⟨kind, text, true⟩ :: ls) := by
  intro m hm
  simp only [List.head?_cons, Option.some.injEq] at hm
  exact hm ▸ rfl

theorem isSpaced_nil : IsSpaced [] := by
  intro l hl
  simp at hl

end Lexeme

namespace Cursor

open Lexeme

variable {c : Cursor} {l : Lexeme} {ls : List Lexeme}

theorem length_lexemes (c : Cursor) : c.lexemes.length = c.rest.length := by simp [lexemes]

theorem peekKind?_eq (c : Cursor) (n : Nat) : c.peekKind? n = c.lexemes[n]?.map (·.kind) := by
  simp [peekKind?, peek?, lexemes, Function.comp_def]

theorem kind?_eq (c : Cursor) : c.kind? = Lexeme.kind? c.lexemes := by
  simp [kind?, Lexeme.kind?, peek?, lexemes, Function.comp_def, List.head?_eq_getElem?]

theorem isSpaced_eq (c : Cursor) (n : Nat) :
    c.isSpaced n = (c.lexemes[n]?.map (·.spaced)).getD true := by
  simp [isSpaced, peek?, lexemes, Function.comp_def]

theorem isAt_eq (c : Cursor) (kind : TokenKind) :
    c.isAt kind = (Lexeme.kind? c.lexemes == some kind) := by rw [isAt, kind?_eq]

theorem lexemes_advance (h : c.lexemes = l :: ls) : c.advance.lexemes = ls := by
  cases c with
  | mk rest lastEnd textEnd =>
    cases rest with
    | nil => simp [lexemes] at h
    | cons t ts =>
      simp only [lexemes, List.map_cons, List.cons.injEq] at h
      exact h.2

/-- The current token is that of the first lexeme. -/
theorem peek?_zero (h : c.lexemes = l :: ls) : ∃ t, c.peek? 0 = some t ∧ t.lexeme = l := by
  cases c with
  | mk rest lastEnd textEnd =>
    cases rest with
    | nil => simp [lexemes] at h
    | cons t ts =>
      simp only [lexemes, List.map_cons, List.cons.injEq] at h
      exact ⟨t, rfl, h.1⟩

theorem isAtMinusNumber_eq (c : Cursor) : c.isAtMinusNumber = startsMinusNumber c.lexemes := by
  rw [isAtMinusNumber, isAt_eq, peekKind?_eq, isSpaced_eq]
  match c.lexemes with
  | [] => rfl
  | [l] => simp [startsMinusNumber]
  | l :: n :: _ => simp [startsMinusNumber]

theorem isAtNegativeLiteral_eq (c : Cursor) : c.isAtNegativeLiteral =
    (startsMinusNumber c.lexemes && !startsPower (c.lexemes.drop 2)) := by
  rw [isAtNegativeLiteral, isAtMinusNumber_eq, peekKind?_eq, startsPower, Lexeme.kind?,
    List.head?_drop, bne]

theorem isAtCall_eq (c : Cursor) : c.isAtCall = startsCall c.lexemes := by
  rw [isAtCall, peekKind?_eq, isSpaced_eq]
  match c.lexemes with
  | [] => rfl
  | [l] => simp [startsCall]
  | l :: p :: _ => simp [startsCall]

theorem isAtDetachedNegative_eq (c : Cursor) : c.isAtDetachedNegative = startsDetached c.lexemes := by
  rw [isAtDetachedNegative, isAtMinusNumber_eq, isSpaced_eq, startsDetached, List.head?_eq_getElem?]

theorem operation?_eq (juxtapose : Bool) (c : Cursor) :
    Parser.operation? juxtapose c = Lexeme.operation? juxtapose c.lexemes := by
  rw [Parser.operation?, Lexeme.operation?, kind?_eq, isAtDetachedNegative_eq]
  cases hk : Lexeme.kind? c.lexemes with
  | none => rfl
  | some kind =>
    cases kind with
    | operator op =>
      cases op <;> cases juxtapose <;> cases startsDetached c.lexemes <;> rfl
    | _ => rfl

end Cursor

/-! ### Running a parser -/

namespace Parser

variable {α β : Type} {p : Parser α} {f : α → Parser β} {c c' : Cursor}

/-- The parser succeeds, and `Q` holds of its result and of where it stops. -/
def Gives (p : Parser α) (c : Cursor) (Q : α → Cursor → Prop) : Prop :=
  ∃ a c', p c = .ok a c' ∧ Q a c'

/-- If the parser succeeds, `Q` holds of its result and of where it stops. -/
def Ensures (p : Parser α) (c : Cursor) (Q : α → Cursor → Prop) : Prop :=
  ∀ a c', p c = .ok a c' → Q a c'

theorem bind_of_ok {a : α} (h : p c = .ok a c') : (p >>= f) c = f a c' := by
  change EStateM.bind p f c = _
  rw [EStateM.bind, h]

theorem bind_of_error {d : Diagnostic} (h : p c = .error d c') : (p >>= f) c = .error d c' := by
  change EStateM.bind p f c = _
  rw [EStateM.bind, h]

theorem get_bind (f : Cursor → Parser β) (c : Cursor) : (get >>= f) c = f c c := rfl

/-- A sequence of parsers succeeds only if both of them do. -/
theorem ok_of_bind {b : β} {c'' : Cursor} (h : (p >>= f) c = .ok b c'') :
    ∃ a c', p c = .ok a c' ∧ f a c' = .ok b c'' := by
  cases hp : p c with
  | ok a c' => exact ⟨a, c', rfl, by rwa [bind_of_ok hp] at h⟩
  | error d c' =>
    rw [bind_of_error hp] at h
    cases h

theorem Gives.bind {Q : β → Cursor → Prop} (h : Gives p c fun a c' => Gives (f a) c' Q) :
    Gives (p >>= f) c Q := by
  obtain ⟨a, c', hp, b, c'', hf, hq⟩ := h
  exact ⟨b, c'', by rw [bind_of_ok hp, hf], hq⟩

theorem Gives.pure {a : α} {Q : α → Cursor → Prop} (h : Q a c) :
    Gives (Pure.pure a : Parser α) c Q := ⟨a, c, rfl, h⟩

theorem Ensures.bind {Q : β → Cursor → Prop} (h : Ensures p c fun a c' => Ensures (f a) c' Q) :
    Ensures (p >>= f) c Q := by
  intro b c'' hb
  obtain ⟨a, c', hp, hf⟩ := ok_of_bind hb
  exact h a c' hp b c'' hf

theorem Ensures.mono {Q R : α → Cursor → Prop} (h : Ensures p c Q) (hqr : ∀ a c', Q a c' → R a c') :
    Ensures p c R := fun a c' hp => hqr a c' (h a c' hp)

theorem Ensures.pure {a : α} {Q : α → Cursor → Prop} (h : Q a c) :
    Ensures (Pure.pure a : Parser α) c Q := by
  intro b c' hb
  cases hb
  exact h

theorem Ensures.get_bind {f : Cursor → Parser β} {Q : β → Cursor → Prop} (h : Ensures (f c) c Q) :
    Ensures (get >>= f) c Q := h

theorem Gives.get_bind {f : Cursor → Parser β} {Q : β → Cursor → Prop} (h : Gives (f c) c Q) :
    Gives (get >>= f) c Q := h

theorem Ensures.fail (fault : Fault) (Q : α → Cursor → Prop) : Ensures (fail fault) c Q := by
  intro a c' h
  cases h

theorem Ensures.failExpected (what : Expected) (Q : α → Cursor → Prop) :
    Ensures (failExpected what) c Q := by
  intro a c' h
  cases h

theorem advance_run (c : Cursor) : advance c = .ok () c.advance := rfl

theorem Gives.advance_bind {f : Unit → Parser β} {Q : β → Cursor → Prop}
    (h : Gives (f ()) c.advance Q) : Gives (advance >>= f) c Q := h

theorem Ensures.advance_bind {f : Unit → Parser β} {Q : β → Cursor → Prop}
    (h : Ensures (f ()) c.advance Q) : Ensures (advance >>= f) c Q := h

/-! ### Single tokens -/

open Lexeme

theorem takeIf_pos {kind : TokenKind} (h : Lexeme.kind? c.lexemes = some kind) :
    takeIf kind c = .ok true c.advance := by
  rw [takeIf, Cursor.isAt_eq, h]
  simp

theorem takeIf_neg {kind : TokenKind} (h : Lexeme.kind? c.lexemes ≠ some kind) :
    takeIf kind c = .ok false c := by
  rw [takeIf, Cursor.isAt_eq, if_neg (by simpa using h)]

theorem expect_pos {kind : TokenKind} (what : Expected) (h : Lexeme.kind? c.lexemes = some kind) :
    expect kind what c = .ok () c.advance := by
  rw [expect, Cursor.isAt_eq, h]
  simp

theorem takeText_run {l : Lexeme} {ls : List Lexeme} (h : c.lexemes = l :: ls) :
    takeText c = .ok l.text c.advance := by
  obtain ⟨t, ht, htl⟩ := Cursor.peek?_zero h
  rw [takeText, ht, ← htl]
  rfl

/-- What the current token is decides whether it is consumed. -/
theorem Ensures.takeIf {kind : TokenKind} {Q : Bool → Cursor → Prop}
    (hpos : Lexeme.kind? c.lexemes = some kind → Q true c.advance)
    (hneg : Lexeme.kind? c.lexemes ≠ some kind → Q false c) : Ensures (takeIf kind) c Q := by
  intro b c' hb
  by_cases h : Lexeme.kind? c.lexemes = some kind
  · rw [takeIf_pos h] at hb
    cases hb
    exact hpos h
  · rw [takeIf_neg h] at hb
    cases hb
    exact hneg h

theorem Ensures.expect {kind : TokenKind} {what : Expected} {Q : Unit → Cursor → Prop}
    (h : Lexeme.kind? c.lexemes = some kind → Q () c.advance) : Ensures (expect kind what) c Q := by
  intro b c' hb
  by_cases hk : Lexeme.kind? c.lexemes = some kind
  · rw [expect_pos what hk] at hb
    cases hb
    exact h hk
  · rw [Parser.expect, Cursor.isAt_eq, if_neg (by simpa using hk)] at hb
    cases hb

theorem ok_of_expect {kind : TokenKind} {what : Expected} {u : Unit}
    (h : expect kind what c = .ok u c') : Lexeme.kind? c.lexemes = some kind ∧ c' = c.advance :=
  Ensures.expect (Q := fun _ d => Lexeme.kind? c.lexemes = some kind ∧ d = c.advance)
    (fun hk => ⟨hk, rfl⟩) u c' h

end Parser

end ControlFile
