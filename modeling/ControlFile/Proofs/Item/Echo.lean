import ControlFile.Proofs.Item.Follow
import ControlFile.Proofs.Token.Adjacent

/-!
# Echoes

A parser *echoes* where it stands (`Parser.Echoes`) if, whenever it succeeds there, what it has read can
be written and is read again.  Three things are to be said of that.

* `Prints text row`: the text is cut into the lexemes of the row, and all of them are read.
* `Echo`: the row starts like the tokens that were consumed, as far as anything before it can tell.
* `ReadsBack`: at the row, the same parser gives the same again, but for places and folded signs, and
  stops behind it.

What follows has to start as what follows in the text does (`Lexeme.Follows`).
-/

namespace ControlFile

open Lexer Lexeme

/-! ### Printed texts -/

/-- The lexeme is neither a comment nor invalid. -/
def Lexeme.IsRead (l : Lexeme) : Prop := l.kind.isTrivia = false ∧ l.kind ≠ .invalid

/-- The text is cut into the lexemes of the row, and all of them are read. -/
structure Prints (text : String) (row : Bool → List Lexeme) : Prop where
  spells : Spells text.toList row
  read : ∀ s, ∀ l ∈ row s, l.IsRead
  head : ∀ s, ∃ l ls, row s = l :: ls ∧ l.spaced = s

/-- The text, which may be empty, is cut into the lexemes where it stands behind something. -/
structure Trails (text : String) (ls : List Lexeme) : Prop where
  touches : Touches text.toList ls
  closed : Closed text.toList
  read : ∀ l ∈ ls, l.IsRead

section Prints

variable {a b : String} {rowA rowB : Bool → List Lexeme} {ls : List Lexeme}

theorem LexesAs.prints {kind : TokenKind} {text : String} (h : LexesAs kind text)
    (hk : kind.isTrivia = false) (hi : kind ≠ .invalid) : Prints text fun s => [⟨kind, text, s⟩] where
  spells := h.spells hk hi
  read s := by simpa [IsRead] using ⟨hk, hi⟩
  head s := ⟨_, _, rfl, rfl⟩

theorem Prints.trails (ha : Prints a rowA) (hb : Trails b ls) :
    Prints (a ++ b) fun s => rowA s ++ ls where
  spells := by
    intro spaced cs hcs
    have hclosed : Closed (b.toList ++ cs) := by
      cases hb' : b.toList with
      | nil => exact hcs
      | cons c bs => exact hb' ▸ hb.closed.append (by simp [hb']) cs
    rw [String.toList_append, List.append_assoc, ha.spells spaced _ hclosed, hb.touches cs hcs,
      List.append_assoc]
  read s l hl := (List.mem_append.1 hl).elim (ha.read s l) (hb.read l)
  head s := by
    obtain ⟨l, ls', hrow, hs⟩ := ha.head s
    exact ⟨l, ls' ++ ls, by rw [hrow, List.cons_append], hs⟩

theorem Trails.nil : Trails "" [] := ⟨touches_nil, closed_nil, by simp⟩

theorem Prints.blank {c : Char} (hc : isSpace c = true) (ha : Prints a rowA) :
    Trails (String.ofList [c] ++ a) (rowA true) where
  touches := by simpa using (ha.spells.afterBlank hc).touches
  closed := by
    rw [String.toList_append, String.toList_ofList, List.singleton_append]
    exact closed_cons _ (by simp [isDelimiter, hc])
  read := ha.read true

theorem Trails.append {text text' : String} {ls' : List Lexeme} (h : Trails text ls)
    (h' : Trails text' ls') : Trails (text ++ text') (ls ++ ls') where
  touches := by
    rw [String.toList_append]
    exact h.touches.append h'.touches h'.closed
  closed := by
    rw [String.toList_append]
    cases htext : text.toList with
    | nil => exact h'.closed
    | cons c cs => exact htext ▸ h.closed.append (by simp [htext]) _
  read l hl := (List.mem_append.1 hl).elim (h.read l) (h'.read l)

/-- Something behind a blank. -/
theorem Prints.spaced (ha : Prints a rowA) (hb : Prints b rowB) :
    Prints (a ++ " " ++ b) fun s => rowA s ++ rowB true := by
  rw [String.append_assoc]
  exact ha.trails (hb.blank (c := ' ') rfl)

theorem isRead_ofChar {c : Char} (hc : isMark c = true) (s : Bool) : (ofChar c s).IsRead := by
  refine ⟨isTrivia_single c, ?_⟩
  simp only [isMark, List.contains_eq_mem, List.mem_cons, List.not_mem_nil, or_false,
    decide_eq_true_eq] at hc
  rcases hc with rfl | rfl | rfl | rfl | rfl | rfl | rfl | rfl | rfl | rfl <;> simp [ofChar, single]

theorem prints_mark {c : Char} (hc : isMark c = true) :
    Prints (String.ofList [c]) fun s => [.ofChar c s] where
  spells := by
    rw [String.toList_ofList]
    exact spells_mark hc
  read s l hl := by
    rw [List.mem_singleton] at hl
    exact hl ▸ isRead_ofChar hc s
  head s := ⟨_, _, rfl, rfl⟩

/-- Something that touches the mark before it. -/
theorem Prints.afterMark {c : Char} (hc : isMark c = true) (ha : Prints a rowA) :
    Prints (String.ofList [c] ++ a) fun s => .ofChar c s :: rowA false where
  spells := by
    rw [String.toList_append, String.toList_ofList, List.singleton_append]
    exact ha.spells.afterMark hc
  read s l hl := by
    rcases List.mem_cons.1 hl with rfl | hl
    · exact isRead_ofChar hc s
    · exact ha.read false l hl
  head s := ⟨_, _, rfl, rfl⟩

/-- A mark that touches what is before it. -/
theorem trails_mark {c : Char} (hc : isMark c = true) (hd : isDelimiter c = true) :
    Trails (String.ofList [c]) [.ofChar c false] where
  touches := by
    rw [String.toList_ofList]
    exact (spells_mark hc).touches
  closed := by simpa using closed_cons [] hd
  read l hl := by
    rw [List.mem_singleton] at hl
    exact hl ▸ isRead_ofChar hc false

/-- Behind a blank a row is spaced. -/
theorem Prints.isSpaced (h : Prints a rowA) (rs : List Lexeme) : IsSpaced (rowA true ++ rs) := by
  obtain ⟨l, ls, hrow, hs⟩ := h.head true
  intro m hm
  rw [hrow, List.cons_append, List.head?_cons, Option.some.injEq] at hm
  exact hm ▸ hs

end Prints

/-! ### Printed expressions -/

theorem isRead_row_literal (s : Bool) (value : Literal) : ∀ l ∈ value.row s, l.IsRead := by
  unfold Literal.row withMinus
  have hmagnitude : ∀ b, Lexeme.IsRead ⟨value.magnitude.1, value.magnitude.2, b⟩ := by
    intro b
    cases value <;> simp [IsRead, Literal.magnitude, TokenKind.isTrivia]
  split
  · refine List.forall_mem_cons.2 ⟨?_, List.forall_mem_singleton.2 (hmagnitude _)⟩
    simp [IsRead, ofChar, single, TokenKind.isTrivia]
  · exact List.forall_mem_singleton.2 (hmagnitude _)

theorem isRead_nameLexeme (s : Bool) (name : String) : (nameLexeme s name).IsRead := by
  unfold nameLexeme
  split <;> simp [IsRead, TokenKind.isTrivia]

theorem isRead_row_refinement (s : Bool) (r : Refinement) : ∀ l ∈ r.row s, l.IsRead := by
  cases r with
  | plain => simp [Refinement.row]
  | _ => exact List.forall_mem_singleton.2 (isRead_ofChar rfl s)

theorem isRead_row_uncertainty (s : Bool) (u : Uncertainty) : ∀ l ∈ u.row s, l.IsRead := by
  cases u with
  | literal value => exact isRead_row_literal s value
  | name n => exact List.forall_mem_singleton.2 (by simp [IsRead, TokenKind.isTrivia])

theorem isRead_row_operator (op : BinaryOp) : ∀ l ∈ op.row, l.IsRead := by
  cases op <;> simp [BinaryOp.row, IsRead, TokenKind.isTrivia]

mutual

theorem isRead_row : (e : Expr) → (s : Bool) → ∀ l ∈ e.row s, l.IsRead
  | .literal value, s => isRead_row_literal s value
  | .ident name, s => List.forall_mem_singleton.2 (isRead_nameLexeme s name)
  | .call name as _, s => by
    refine List.forall_mem_cons.2 ⟨by simp [IsRead, TokenKind.isTrivia],
      List.forall_mem_cons.2 ⟨isRead_ofChar rfl _, List.forall_mem_append.2
        ⟨isRead_rowFirst as, List.forall_mem_singleton.2 (isRead_ofChar rfl _)⟩⟩⟩
  | .unary op operand, s => by
    refine List.forall_mem_cons.2 ⟨?_, isRead_row operand false⟩
    cases op <;> simp [IsRead, UnaryOp.lexeme, ofChar, single, TokenKind.isTrivia]
  | .binary op lhs rhs, s => List.forall_mem_append.2 ⟨List.forall_mem_append.2
      ⟨isRead_row lhs s, isRead_row_operator op⟩, isRead_row rhs true⟩
  | .paren inner, s => List.forall_mem_cons.2 ⟨isRead_ofChar rfl _, List.forall_mem_append.2
      ⟨isRead_row inner false, List.forall_mem_singleton.2 (isRead_ofChar rfl _)⟩⟩

theorem isRead_row_argument : (a : Argument) → (s : Bool) → ∀ l ∈ a.row s, l.IsRead
  | .hole, _ => List.forall_mem_nil _
  | .parameter param, s => isRead_row_parameter param s
  | .expr e, s => isRead_row e s
  | .equation e, s => isRead_row_equation e s

theorem isRead_rowFirst : (as : List Argument) → ∀ l ∈ Argument.rowFirst as, l.IsRead
  | [] => List.forall_mem_nil _
  | a :: as => List.forall_mem_append.2 ⟨isRead_row_argument a false, isRead_rowRest as⟩

theorem isRead_rowRest : (as : List Argument) → ∀ l ∈ Argument.rowRest as, l.IsRead
  | [] => List.forall_mem_nil _
  | a :: as => List.forall_mem_cons.2 ⟨isRead_ofChar rfl _, List.forall_mem_append.2
      ⟨isRead_row_argument a true, isRead_rowRest as⟩⟩

theorem isRead_row_parameter : (p : Parameter) → (s : Bool) → ∀ l ∈ p.row s, l.IsRead
  | ⟨refinement, name, value⟩, s => by
    refine List.forall_mem_append.2 ⟨List.forall_mem_append.2
      ⟨isRead_row_refinement s refinement, ?_⟩, isRead_row_value value _⟩
    cases name with
    | none => exact List.forall_mem_nil _
    | some n => exact List.forall_mem_singleton.2 (isRead_nameLexeme _ n)

theorem isRead_row_value : (value : Value) → (s : Bool) → ∀ l ∈ value.row s, l.IsRead
  | .absent, _ => List.forall_mem_nil _
  | .literal value, s => isRead_row_literal s value
  | .equation e, s => isRead_row_equation e s

theorem isRead_row_equation : (e : Equation) → (s : Bool) → ∀ l ∈ e.row s, l.IsRead
  | ⟨op, body, uncertainty⟩, s => by
    refine List.forall_mem_cons.2 ⟨by simp [IsRead, TokenKind.isTrivia], List.forall_mem_append.2
      ⟨isRead_row body true, List.forall_mem_cons.2 ⟨isRead_ofChar rfl _, ?_⟩⟩⟩
    cases uncertainty with
    | none => exact List.forall_mem_nil _
    | some u => exact List.forall_mem_cons.2 ⟨isRead_ofChar rfl _, isRead_row_uncertainty true u⟩

end

theorem Expr.prints {v : Vocabulary} {j : Bool} {e : Expr} (h : e.Grammatical v j) :
    Prints e.render fun s => e.row s where
  spells := (e.writes h).spells
  read := isRead_row e
  head s := by
    obtain ⟨kind, text, ls, hrow, -⟩ := e.row_eq_cons h s
    exact ⟨_, ls, hrow, rfl⟩

theorem Equation.prints {v : Vocabulary} {e : Equation} (h : e.Grammatical v) :
    Prints e.render fun s => e.row s where
  spells := e.spells h
  read := isRead_row_equation e
  head s := by
    obtain ⟨op, body, uncertainty⟩ := e
    exact ⟨_, _, rfl, rfl⟩

/-- A place with something in it. -/
theorem Parameter.prints {p : Parameter} (h : Spells p.render.toList p.row)
    (hne : p.refinement ≠ .plain ∨ p.name.isSome = true ∨ p.value ≠ .absent) :
    Prints p.render fun s => p.row s where
  spells := h
  read := isRead_row_parameter p
  head s := by
    obtain ⟨refinement, name, value⟩ := p
    cases refinement with
    | plain =>
      cases name with
      | none =>
        cases value with
        | absent => simp at hne
        | literal value =>
          simp only [Parameter.row, Refinement.row, Value.row, Literal.row, withMinus]
          cases value.isNegative <;> exact ⟨_, _, rfl, by simp [ofChar]⟩
        | equation e =>
          obtain ⟨op, body, uncertainty⟩ := e
          exact ⟨_, _, rfl, by simp⟩
      | some n => exact ⟨_, _, rfl, by simp [nameLexeme]⟩
    | _ => exact ⟨_, _, rfl, rfl⟩

/-! ### Echoes -/

/-- How something is written, how it looks without places, what its signs are folded to, whether it
ends with an open place, and how alike it starts. -/
structure Writing (α : Type) where
  text : α → String
  bare : α → α
  folded : α → α
  isOpen : α → Bool
  like : List Lexeme → List Lexeme → Prop

/-- What is behind a word starts alike: it does not make the word a call, and it is an assignment in
both places or in none. -/
structure Lexeme.AlikeBehind (src out : List Lexeme) : Prop where
  noCall : kind? src ≠ some (.mark .openParen)
  assign : startsAssign src = startsAssign out

theorem Lexeme.AlikeBehind.of_alike {src out : List Lexeme} (h : Alike src out)
    (hk : kind? src ≠ some (.mark .openParen)) : AlikeBehind src out := ⟨hk, h.startsAssign⟩

namespace Writing

def expr : Writing Expr where
  text := Expr.render
  bare := Expr.bare
  folded := Expr.foldSigns false
  isOpen _ := false
  like := Alike

def equation : Writing Equation where
  text := Equation.render
  bare := Equation.bare
  folded := Equation.foldSigns
  isOpen _ := false
  like := Alike

def parameter : Writing Parameter where
  text := Parameter.render
  bare := Parameter.bare
  folded := Parameter.foldSigns
  isOpen := Parameter.isOpen
  like := AlikeBehind

def kind : Writing ItemKind where
  text := ItemKind.render
  bare := ItemKind.change .bare
  folded := ItemKind.change .foldSigns
  isOpen := ItemKind.isOpen
  like := Alike

end Writing

/-- What has been read from `c` to `c'` is written `text`, and starts like it. -/
structure Echo (like : List Lexeme → List Lexeme → Prop) (text : String)
    (row : Bool → List Lexeme) (c c' : Cursor) : Prop where
  passes : c.Passes c'
  prints : Prints text row
  start : ∀ s rs, Follows c'.lexemes rs → like c.lexemes (row s ++ rs)

namespace Parser

variable {α β : Type}

/-- At the row, `p` gives `a` again and stops behind it. -/
def ReadsBack (w : Writing α) (p : Parser α) (a : α) (row : Bool → List Lexeme) (c' : Cursor) : Prop :=
  ∀ s rs d, Follows c'.lexemes rs → (w.isOpen a = true → startsMinusNumber rs = false) →
    d.lexemes = row s ++ rs → ReadsTo p d w.bare (w.bare (w.folded a)) rs

/-- What `p` reads at `c` can be written and is read again. -/
def Echoes (w : Writing α) (p : Parser α) (c : Cursor) : Prop :=
  Ensures p c fun a c' => ∃ row, Echo w.like (w.text a) row c c' ∧ ReadsBack w p a row c'

end Parser

/-- What follows in the text, and something that has been written for it. -/
theorem Echo.follows {text : String} {row : Bool → List Lexeme} {c c' : Cursor}
    (h : Echo Alike text row c c') {rs : List Lexeme} (hrs : Follows c'.lexemes rs) :
    Follows c.lexemes (row true ++ rs) :=
  ⟨h.start true rs hrs, h.prints.isSpaced rs⟩

/-- One behind the other. -/
theorem Echo.trans {like : List Lexeme → List Lexeme → Prop} {text text' : String}
    {row row' : Bool → List Lexeme} {c c' c'' : Cursor} (h : Echo like text row c c')
    (h' : Echo Alike text' row' c' c'') :
    Echo like (text ++ " " ++ text') (fun s => row s ++ row' true) c c'' where
  passes := h.passes.trans h'.passes
  prints := h.prints.spaced h'.prints
  start s rs hrs := by
    rw [List.append_assoc]
    exact h.start s _ (h'.follows hrs)

end ControlFile
