import ControlFile.Proofs.Token.Locality
import ControlFile.Token.Cursor

/-!
# Lexemes

What the parser makes of a token depends on its kind, its text and whether there is space before
it, and not on where it stands.  A `Lexeme` is just that, and `Lexer.lexemes` is the row of lexemes
of a text.

A written text is put together from pieces.  `Spells cs row` says that the piece `cs` is cut into
`row`, whatever closed text follows; `row` takes whether there is space before the piece.  Pieces
that are closed can be put behind any other (`Spells.append`), and so can every piece after a blank
(`Spells.afterBlank`) or after a mark (`Spells.afterMark`).
-/

namespace ControlFile

/-- A token without its place. -/
structure Lexeme where
  kind : TokenKind
  text : String
  spaced : Bool
deriving DecidableEq, Inhabited

def Token.lexeme (t : Token) : Lexeme := ⟨t.kind, t.text, t.spaced⟩

@[simp] theorem Token.kind_lexeme (t : Token) : t.lexeme.kind = t.kind := rfl

@[simp] theorem Token.text_lexeme (t : Token) : t.lexeme.text = t.text := rfl

@[simp] theorem Token.spaced_lexeme (t : Token) : t.lexeme.spaced = t.spaced := rfl

namespace Lexer

/-- The lexemes of a text.  Blanks are left out, all else is kept. -/
def lexemes (spaced : Bool) (cs : List Char) : List Lexeme :=
  ((scan 0 spaced cs).filter (·.kind != .blank)).map Token.lexeme

/-- Where a text stands does not matter for its lexemes. -/
theorem map_lexeme_scan (n m : Nat) (spaced : Bool) (cs : List Char) :
    ((scan n spaced cs).filter (·.kind != .blank)).map Token.lexeme =
      ((scan m spaced cs).filter (·.kind != .blank)).map Token.lexeme := by
  fun_induction scan n spaced cs generalizing m with
  | case1 => simp
  | case2 offset spaced c cs kind k heq text stop ih =>
    rw [scan_cons, heq]
    by_cases hb : kind = .blank
    · simpa [hb] using ih _
    · simpa [hb, Token.lexeme, text] using ih _

@[simp] theorem lexemes_nil (spaced : Bool) : lexemes spaced [] = [] := by simp [lexemes]

/-- The text of the first token of `c :: cs`. -/
def firstText (c : Char) (cs : List Char) : String := String.ofList (c :: cs.take (first c cs).2)

theorem lexemes_cons (spaced : Bool) (c : Char) (cs : List Char) :
    lexemes spaced (c :: cs) =
      (if (first c cs).1 = .blank then [] else [⟨(first c cs).1, firstText c cs, spaced⟩]) ++
        lexemes (first c cs).1.isTrivia (cs.drop (first c cs).2) := by
  unfold lexemes
  rw [scan_cons]
  by_cases hb : (first c cs).1 = .blank
  · simp only [List.filter_cons, hb, bne_self_eq_false, Bool.false_eq_true, if_false, if_true,
      List.nil_append]
    exact map_lexeme_scan ..
  · simp only [List.filter_cons, bne_iff_ne, ne_eq, hb, not_false_eq_true, if_true, if_false,
      List.map_cons, List.cons_append, List.nil_append]
    exact congrArg _ (map_lexeme_scan ..)

/-- A token that is not blank is the first lexeme. -/
theorem lexemes_cons_of_ne (spaced : Bool) {c : Char} {cs : List Char} {kind : TokenKind} {n : Nat}
    (h : first c cs = (kind, n)) (hk : kind.isTrivia = false) :
    lexemes spaced (c :: cs) =
      ⟨kind, String.ofList (c :: cs.take n), spaced⟩ :: lexemes false (cs.drop n) := by
  have hb : kind ≠ .blank := by
    rintro rfl
    exact Bool.noConfusion hk
  rw [lexemes_cons, h, if_neg hb, firstText, h, hk]
  rfl

theorem first_of_isSpace {c : Char} (hc : isSpace c = true) (cs : List Char) :
    first c cs = (.blank, countWhile isSpace cs) := by
  rw [first, if_pos hc]

/-- **Blanks are only space.**  However many of them there are, what follows is spaced. -/
theorem lexemes_blank (spaced : Bool) {c : Char} (hc : isSpace c = true) (cs : List Char) :
    lexemes spaced (c :: cs) = lexemes true cs := by
  rw [lexemes_cons, first_of_isSpace hc]
  cases cs with
  | nil => simp [countWhile]
  | cons d ds =>
    by_cases hd : isSpace d = true
    · rw [lexemes_cons true d ds, first_of_isSpace hd, countWhile_cons, if_pos hd]
      rfl
    · rw [countWhile_cons, if_neg hd]
      rfl

end Lexer

/-! ### Pieces of a text -/

open Lexer

/-- The piece `cs` of a text is cut into the given lexemes, if closed text follows. -/
def Spells (cs : List Char) (row : Bool → List Lexeme) : Prop :=
  ∀ spaced b, Closed b → lexemes spaced (cs ++ b) = row spaced ++ lexemes false b

/-- The text is one token of the given kind. -/
def LexesAs (kind : TokenKind) (text : String) : Prop :=
  ∃ c cs, text.toList = c :: cs ∧ first c cs = (kind, cs.length)

/-- Before closed text the token is the same. -/
theorem LexesAs.exists_first {kind : TokenKind} {text : String} (h : LexesAs kind text)
    (hk : kind.isTrivia = false) (hi : kind ≠ .invalid) :
    ∃ c cs, text.toList = c :: cs ∧ ∀ b, Closed b → first c (cs ++ b) = (kind, cs.length) := by
  obtain ⟨c, cs, htext, hfirst⟩ := h
  refine ⟨c, cs, htext, fun b hb => ?_⟩
  have hnil : first c (cs ++ []) = (kind, cs.length) := by rw [List.append_nil, hfirst]
  rw [first_append (a := []) hb cs (Nat.le_of_eq (by rw [hnil])) (by rw [hnil]; exact hk)
    (fun _ => by rw [hnil]; exact hi), hnil]

theorem LexesAs.spells {kind : TokenKind} {text : String} (h : LexesAs kind text)
    (hk : kind.isTrivia = false) (hi : kind ≠ .invalid) :
    Spells text.toList fun s => [⟨kind, text, s⟩] := by
  obtain ⟨c, cs, htext, hfirst⟩ := h.exists_first hk hi
  intro spaced b hb
  rw [htext, List.cons_append, lexemes_cons_of_ne spaced (hfirst b hb) hk, List.take_left' rfl,
    List.drop_left' rfl, ← htext, String.ofList_toList]
  rfl

/-- Pieces one behind the other, if the second one is closed. -/
theorem Spells.append {as bs : List Char} {rowA rowB : Bool → List Lexeme} (ha : Spells as rowA)
    (hb : Spells bs rowB) (hc : Closed bs) (hne : bs ≠ []) :
    Spells (as ++ bs) fun s => rowA s ++ rowB false := by
  intro spaced b hclosed
  rw [List.append_assoc, ha spaced (bs ++ b) (hc.append hne b), hb false b hclosed,
    List.append_assoc]

theorem Spells.afterBlank {bs : List Char} {row : Bool → List Lexeme} (h : Spells bs row)
    {c : Char} (hc : isSpace c = true) : Spells (c :: bs) fun _ => row true := by
  intro spaced b hb
  rw [List.cons_append, lexemes_blank spaced hc, h true b hb]

theorem closed_blank (cs : List Char) : Closed (' ' :: cs) := closed_cons cs (by decide)

/-- A piece, a blank and another piece. -/
theorem Spells.spaced {as bs : List Char} {rowA rowB : Bool → List Lexeme} (ha : Spells as rowA)
    (hb : Spells bs rowB) : Spells (as ++ ' ' :: bs) fun s => rowA s ++ rowB true :=
  ha.append (hb.afterBlank (by decide)) (closed_blank bs) (by simp)

/-! ### Marks and signs -/

/-- The characters that are tokens by themselves, whatever follows. -/
def isMark (c : Char) : Bool :=
  ['\x7b', '\x7d', '(', ')', ';', ':', ',', '&', '@', '!'].contains c

theorem first_of_isMark {c : Char} (hc : isMark c = true) (cs : List Char) :
    first c cs = (single c, 0) := by
  simp only [isMark, List.contains_eq_mem, List.mem_cons, List.not_mem_nil, or_false,
    decide_eq_true_eq] at hc
  rcases hc with rfl | rfl | rfl | rfl | rfl | rfl | rfl | rfl | rfl | rfl <;> rfl

theorem isTrivia_single (c : Char) : (single c).isTrivia = false := by
  unfold single
  split <;> rfl

theorem lexemes_mark {c : Char} (hc : isMark c = true) (spaced : Bool) (cs : List Char) :
    lexemes spaced (c :: cs) = ⟨single c, String.ofList [c], spaced⟩ :: lexemes false cs := by
  rw [lexemes_cons_of_ne spaced (first_of_isMark hc cs) (isTrivia_single c)]
  rfl

theorem Spells.afterMark {bs : List Char} {row : Bool → List Lexeme} (h : Spells bs row) {c : Char}
    (hc : isMark c = true) :
    Spells (c :: bs) fun s => ⟨single c, String.ofList [c], s⟩ :: row false := by
  intro spaced b hb
  rw [List.cons_append, lexemes_mark hc, h false b hb]
  rfl

theorem spells_mark {c : Char} (hc : isMark c = true) :
    Spells [c] fun s => [⟨single c, String.ofList [c], s⟩] := by
  intro spaced b _
  rw [List.singleton_append, lexemes_mark hc]
  rfl

/-- A sign ends before everything but an equals sign. -/
theorem first_of_sign {c : Char} (hc : c = '+' ∨ c = '-') {cs : List Char}
    (hcs : cs.head? ≠ some '=') : first c cs = (single c, 0) := by
  have : punctuation c cs = (single c, 0) := by
    unfold punctuation
    rcases hc with rfl | rfl <;> simp [withEquals, hcs]
  rcases hc with rfl | rfl <;> exact this

theorem Spells.afterSign {bs : List Char} {row : Bool → List Lexeme} (h : Spells bs row) {c : Char}
    (hc : c = '+' ∨ c = '-') {d : Char} (hd : bs.head? = some d) (hne : d ≠ '=') :
    Spells (c :: bs) fun s => ⟨single c, String.ofList [c], s⟩ :: row false := by
  intro spaced b hb
  have hcs : (bs ++ b).head? ≠ some '=' := by
    cases bs with
    | nil => simp at hd
    | cons e bs =>
      simp only [List.head?_cons, Option.some.injEq] at hd
      simpa [hd] using hne
  rw [List.cons_append, lexemes_cons_of_ne spaced (first_of_sign hc hcs) (isTrivia_single c),
    List.drop_zero, h false b hb]
  rfl

end ControlFile
