import ControlFile.Proofs.Token.Lexeme

/-!
# Lexical words

`Lexer.kinds` is the row of the kinds of the tokens of a text, blanks and all.  A text is one word of the
language if this row is that of the mark of a parameter, a string, a name, or a number with a sign or without
(`IsLexicalWord`): nothing stands before the word, behind it or between a sign and its number.
-/

namespace ControlFile

open Lexer

/-! ### Kinds of tokens -/

namespace Lexer

/-- The kinds of the tokens of a text, those of blanks and comments among them. -/
def kinds (cs : List Char) : List TokenKind := (scan 0 true cs).map (·.kind)

/-- Where a text stands does not matter for the kinds of its tokens. -/
theorem map_kind_scan (n m : Nat) (spaced spaced' : Bool) (cs : List Char) :
    (scan n spaced cs).map (·.kind) = (scan m spaced' cs).map (·.kind) := by
  fun_induction scan n spaced cs generalizing m spaced' with
  | case1 => simp
  | case2 offset spaced c cs kind k heq text stop ih =>
    rw [scan_cons, heq, List.map_cons, List.map_cons]
    exact congrArg _ (ih _ _)

@[simp] theorem kinds_nil : kinds [] = [] := by simp [kinds]

theorem kinds_cons (c : Char) (cs : List Char) :
    kinds (c :: cs) = (first c cs).1 :: kinds (cs.drop (first c cs).2) := by
  unfold kinds
  rw [scan_cons, List.map_cons]
  exact congrArg _ (map_kind_scan ..)

theorem kinds_mark {c : Char} (hc : isMark c = true) (cs : List Char) :
    kinds (c :: cs) = single c :: kinds cs := by
  rw [kinds_cons, first_of_isMark hc, List.drop_zero]

theorem kinds_singleton {c : Char} (hc : isMark c = true) : kinds [c] = [single c] := by
  rw [kinds_mark hc, kinds_nil]

theorem kinds_sign {c : Char} (hc : c = '+' ∨ c = '-') {cs : List Char} (hcs : cs.head? ≠ some '=') :
    kinds (c :: cs) = single c :: kinds cs := by
  rw [kinds_cons, first_of_sign hc hcs, List.drop_zero]

/-- A string that is not closed is invalid. -/
theorem head?_kinds_unclosed {cs : List Char} (h : '\x22' ∉ cs) :
    (kinds ('\x22' :: cs)).head? = some .invalid := by
  have hstring : first '\x22' cs = string cs := rfl
  have hopen : (cs.drop (countWhile (fun c => c != '\x22' && c != '\n') cs)).head? ≠ some '\x22' :=
    fun hhead => h (List.mem_of_mem_drop (List.mem_of_mem_head? hhead))
  rw [kinds_cons, hstring, string, if_neg hopen]
  rfl

end Lexer

/-- A token by itself, before closed text. -/
theorem LexesAs.kinds_append {kind : TokenKind} {text : String} (h : LexesAs kind text)
    (hk : kind.isTrivia = false) (hi : kind ≠ .invalid) {b : List Char} (hb : Closed b) :
    kinds (text.toList ++ b) = kind :: kinds b := by
  obtain ⟨c, cs, htext, hfirst⟩ := h.exists_first hk hi
  rw [htext, List.cons_append, kinds_cons, hfirst b hb, List.drop_left]

theorem LexesAs.kinds_eq {kind : TokenKind} {text : String} (h : LexesAs kind text) :
    kinds text.toList = [kind] := by
  obtain ⟨c, cs, htext, hfirst⟩ := h
  rw [htext, kinds_cons, hfirst, List.drop_length, kinds_nil]

/-! ### Lexical words -/

/-- The kinds of the tokens of one number without a sign. -/
def TokenKind.areNumber : List TokenKind → Bool
  | [.integer] | [.decimal] => true
  | _ => false

/-- The kinds of the tokens of one word: the mark of a parameter, a string, a name, or a number with a sign
or without. -/
def TokenKind.areWord : List TokenKind → Bool
  | [.mark .atSign] | [.mark .bang] | [.string] | [.ident] => true
  | .operator .add :: ks | .operator .sub :: ks => areNumber ks
  | ks => areNumber ks

/-- The text is cut into the tokens of one word, with nothing before, between and behind them. -/
def IsLexicalWord (text : String) : Prop :=
  TokenKind.areWord ((Token.ofText text).map (·.kind)) = true

instance : DecidablePred IsLexicalWord := fun _ => inferInstanceAs (Decidable (_ = true))

theorem isLexicalWord_iff {text : String} :
    IsLexicalWord text ↔ TokenKind.areWord (kinds text.toList) = true := Iff.rfl

namespace TokenKind

variable {ks : List TokenKind}

theorem areNumber_of_head {kind : TokenKind} (h : ks.head? = some kind) (hk : kind.isNumber = false) :
    areNumber ks = false := by
  obtain ⟨ks, rfl⟩ := List.head?_eq_some_iff.1 h
  cases kind <;> first | rfl | cases hk

theorem areWord_invalid (h : ks.head? = some .invalid) : areWord ks = false := by
  obtain ⟨ks, rfl⟩ := List.head?_eq_some_iff.1 h
  cases ks <;> rfl

theorem areWord_sign {c : Char} (hc : c = '-' ∨ c = '+') (ks : List TokenKind) :
    areWord (single c :: ks) = areNumber ks := by
  rcases hc with rfl | rfl <;> cases ks <;> rfl

end TokenKind

end ControlFile
