import ControlFile.Proofs.Expr.Sound

/-!
# Tokens that touch each other

Tokens that touch each other in a text do not run together where they are written so again
(`Cursor.FromText.spells_touching`): they did not run together in the text either, and behind the
last of them there is a blank now, which no token runs into.
-/

namespace ControlFile

namespace Lexer

/-- The lexemes that are read: comments are left out, as blanks are. -/
def visible (spaced : Bool) (cs : List Char) : List Lexeme :=
  (lexemes spaced cs).filter fun l => !l.kind.isTrivia

/-- Nothing in the text is invalid. -/
def Valid (cs : List Char) : Prop := ∀ l ∈ lexemes true cs, l.kind ≠ .invalid

theorem kinds_lexemes (s s' : Bool) (cs : List Char) :
    (lexemes s cs).map (·.kind) = (lexemes s' cs).map (·.kind) := by
  cases cs with
  | nil => rw [lexemes_nil, lexemes_nil]
  | cons c cs =>
    rw [lexemes_cons, lexemes_cons]
    split <;> rfl

theorem visible_nil (spaced : Bool) : visible spaced [] = [] := by simp [visible]

/-- Comments and blanks are space. -/
theorem visible_trivia {c : Char} {cs : List Char} (h : (first c cs).1.isTrivia = true) (spaced : Bool) :
    visible spaced (c :: cs) = visible true (cs.drop (first c cs).2) := by
  rw [visible, lexemes_cons, h]
  split
  · rfl
  · rw [List.singleton_append, List.filter_cons_of_neg (by simp [h])]
    rfl

theorem visible_cons {c : Char} {cs : List Char} (h : (first c cs).1.isTrivia = false) (spaced : Bool) :
    visible spaced (c :: cs) =
      ⟨(first c cs).1, firstText c cs, spaced⟩ :: visible false (cs.drop (first c cs).2) := by
  rw [visible, lexemes_cons, h, if_neg (by intro hb; rw [hb] at h; exact Bool.noConfusion h),
    List.singleton_append, List.filter_cons_of_pos (by simp [h])]
  rfl

theorem Valid.ne_invalid {c : Char} {cs : List Char} (h : Valid (c :: cs)) :
    (first c cs).1 ≠ .invalid := by
  intro hi
  refine h ⟨(first c cs).1, firstText c cs, true⟩ ?_ hi
  rw [lexemes_cons, hi]
  simp

theorem Valid.behind {c : Char} {cs : List Char} (h : Valid (c :: cs)) :
    Valid (cs.drop (first c cs).2) := by
  intro l hl
  have hkind : l.kind ∈ (lexemes (first c cs).1.isTrivia (cs.drop (first c cs).2)).map (·.kind) := by
    rw [kinds_lexemes _ true]
    exact List.mem_map_of_mem hl
  obtain ⟨m, hm, hml⟩ := List.mem_map.1 hkind
  have := h m (by rw [lexemes_cons]; exact List.mem_append_right _ hm)
  rwa [hml] at this

/-- Behind space the first token that is read is spaced. -/
theorem spaced_of_visible {cs : List Char} (h : Valid cs) {l : Lexeme} {ls : List Lexeme}
    (hl : visible true cs = l :: ls) : l.spaced = true := by
  induction hn : cs.length using Nat.strong_induction_on generalizing cs with
  | _ n ih =>
    cases cs with
    | nil => rw [visible_nil] at hl; cases hl
    | cons c cs =>
      cases ht : (first c cs).1.isTrivia with
      | true =>
        rw [visible_trivia ht] at hl
        refine ih _ ?_ h.behind hl rfl
        rw [← hn, List.length_drop, List.length_cons]
        omega
      | false =>
        rw [visible_cons ht] at hl
        cases hl
        rfl

/-- A row that is read starts with a token of the text. -/
theorem exists_first_of_visible {spaced : Bool} {cs : List Char} (h : Valid cs) {l : Lexeme}
    {ls : List Lexeme} (hl : visible spaced cs = l :: ls) :
    ∃ s d ds, Valid (d :: ds) ∧ (first d ds).1.isTrivia = false ∧ visible s (d :: ds) = l :: ls := by
  induction hn : cs.length using Nat.strong_induction_on generalizing cs spaced with
  | _ n ih =>
    cases cs with
    | nil => rw [visible_nil] at hl; cases hl
    | cons c cs =>
      cases ht : (first c cs).1.isTrivia with
      | true =>
        rw [visible_trivia ht] at hl
        refine ih _ ?_ h.behind hl rfl
        rw [← hn, List.length_drop, List.length_cons]
        omega
      | false => exact ⟨spaced, c, cs, h, ht, hl⟩

/-- The texts of the lexemes, one behind the other. -/
def textOf (ls : List Lexeme) : String := String.join (ls.map (·.text))

/-- A token, and tokens that touch it. -/
theorem spells_of_visible {ms : List Lexeme} : ∀ {spaced : Bool} {c : Char} {cs : List Char}
    {l : Lexeme} {rest : List Lexeme}, Valid (c :: cs) → (first c cs).1.isTrivia = false →
    visible spaced (c :: cs) = l :: (ms ++ rest) → (∀ m ∈ ms, m.spaced = false) →
    (∃ tail, c :: cs = (textOf (l :: ms)).toList ++ tail) ∧
      Spells (textOf (l :: ms)).toList fun s => ⟨l.kind, l.text, s⟩ :: ms := by
  induction ms with
  | nil =>
    intro spaced c cs l rest hvalid ht hrow _
    rw [visible_cons ht, List.nil_append, List.cons.injEq] at hrow
    have htext : (textOf [l]).toList = c :: cs.take (first c cs).2 := by
      rw [← hrow.1]
      simp [textOf, firstText]
    refine ⟨⟨cs.drop (first c cs).2, by rw [htext, List.cons_append, List.take_append_drop]⟩, ?_⟩
    have hlex := lexesAs_first ht hvalid.ne_invalid
    have hl : textOf [l] = firstText c cs := by
      rw [← hrow.1]
      simp [textOf]
    rw [hl, ← hrow.1]
    exact hlex.spells ht hvalid.ne_invalid
  | cons m ms ih =>
    intro spaced c cs l rest hvalid ht hrow hms
    rw [visible_cons ht, List.cons_append, List.cons.injEq] at hrow
    obtain ⟨hl, hrow⟩ := hrow
    obtain ⟨hm, hms⟩ := List.forall_mem_cons.1 hms
    -- the next token touches this one
    cases hdrop : cs.drop (first c cs).2 with
    | nil => rw [hdrop, visible_nil] at hrow; cases hrow
    | cons d ds =>
      have hvalid' : Valid (d :: ds) := hdrop ▸ hvalid.behind
      rw [hdrop] at hrow
      have ht' : (first d ds).1.isTrivia = false := by
        rw [← Bool.not_eq_true]
        intro htrivia
        rw [visible_trivia htrivia] at hrow
        rw [spaced_of_visible hvalid'.behind hrow] at hm
        exact Bool.noConfusion hm
      obtain ⟨⟨tail, htail⟩, hspells⟩ := ih hvalid' ht' hrow hms
      have htext : (textOf (l :: m :: ms)).toList =
          (c :: cs.take (first c cs).2) ++ (textOf (m :: ms)).toList := by
        rw [← hl]
        simp [textOf, firstText]
      have hcs : cs = cs.take (first c cs).2 ++ (textOf (m :: ms)).toList ++ tail := by
        rw [List.append_assoc, ← htail, ← hdrop, List.take_append_drop]
      refine ⟨⟨tail, by rw [htext, List.cons_append, List.cons_append, ← hcs]⟩, ?_⟩
      intro s b hb
      generalize hn : (first c cs).2 = n at hcs htext
      have hle : (first c cs).2 ≤ (cs.take n ++ (textOf (m :: ms)).toList).length := by
        have := first_le c cs
        rw [List.length_append, List.length_take, hn] at *
        omega
      have hsame := first_append (c := c) (a := tail) hb (cs.take n ++ (textOf (m :: ms)).toList)
        (by rw [← hcs]; exact hle) (by rw [← hcs]; exact ht)
        fun _ => by rw [← hcs]; exact hvalid.ne_invalid
      rw [← hcs] at hsame
      have hlen : (cs.take n).length = n := by
        rw [List.length_take, Nat.min_eq_left (hn ▸ first_le c cs)]
      have hfirst : first c (cs.take n ++ (textOf (m :: ms)).toList ++ b) = ((first c cs).1, n) := by
        rw [hsame, ← hn]
      rw [htext, List.cons_append, List.cons_append, lexemes_cons_of_ne s hfirst ht,
        List.append_assoc, List.drop_left' hlen, List.take_left' hlen, hspells false b hb, ← hl]
      have hmeq : (⟨m.kind, m.text, false⟩ : Lexeme) = m := by
        rw [← hm]
      simp only [firstText, hn, hmeq, List.cons_append]

end Lexer

/-! ### Cursors in a text -/

namespace Cursor

open Lexer

variable {c c' : Cursor}

/-- The tokens ahead are those that are read from a text in which nothing is invalid. -/
def FromText (c : Cursor) : Prop := ∃ spaced cs, Valid cs ∧ c.lexemes = visible spaced cs

/-- What is left of a row is read from what is left of the text. -/
theorem exists_visible_of_suffix {spaced : Bool} {cs : List Char} (h : Valid cs)
    {ls : List Lexeme} (hs : ls <:+ visible spaced cs) :
    ∃ s ds, Valid ds ∧ ls = visible s ds := by
  induction hn : cs.length using Nat.strong_induction_on generalizing cs spaced with
  | _ n ih =>
    by_cases heq : ls = visible spaced cs
    · exact ⟨spaced, cs, h, heq⟩
    · cases cs with
      | nil => exact absurd (List.suffix_nil.1 (visible_nil spaced ▸ hs)) (visible_nil spaced ▸ heq)
      | cons c cs =>
        have hlt : (cs.drop (first c cs).2).length < n := by
          rw [← hn, List.length_drop, List.length_cons]
          omega
        cases ht : (first c cs).1.isTrivia with
        | true => exact ih _ hlt h.behind (visible_trivia ht spaced ▸ hs) rfl
        | false =>
          rw [visible_cons ht] at hs heq
          exact ih _ hlt h.behind ((List.suffix_cons_iff.1 hs).resolve_left heq) rfl

theorem FromText.of_suffix (h : c.FromText) (hs : c'.lexemes <:+ c.lexemes) : c'.FromText := by
  obtain ⟨spaced, cs, hvalid, hrow⟩ := h
  exact exists_visible_of_suffix hvalid (hrow ▸ hs)

theorem Passes.of_suffix {c'' : Cursor} (h : c.Passes c') (hs : c''.lexemes <:+ c'.lexemes) :
    c.Passes c'' :=
  ⟨hs.trans h.suffix, Nat.lt_of_le_of_lt hs.length_le h.shorter⟩

theorem FromText.of_passes (h : c.FromText) (hp : c.Passes c') : c'.FromText := h.of_suffix hp.suffix

theorem FromText.genuine (h : c.FromText) : c.Genuine := by
  intro l hl
  obtain ⟨spaced, cs, hvalid, hrow⟩ := h
  obtain ⟨pre, post, hsplit⟩ := List.append_of_mem hl
  have hpost : l :: post <:+ visible spaced cs := hrow ▸ hsplit ▸ List.suffix_append pre _
  obtain ⟨s, ds, hds, hrest⟩ := exists_visible_of_suffix hvalid hpost
  obtain ⟨s', d, ds', hvalid', ht, hrow'⟩ := exists_first_of_visible hds hrest.symm
  rw [visible_cons ht, List.cons.injEq] at hrow'
  rw [← hrow'.1]
  exact lexesAs_first ht hvalid'.ne_invalid

/-- **Tokens that touch each other can be written so again.** -/
theorem FromText.spells_touching (h : c.FromText) {l : Lexeme} {ms rest : List Lexeme}
    (hrow : c.lexemes = l :: (ms ++ rest)) (hms : ∀ m ∈ ms, m.spaced = false) :
    Spells (textOf (l :: ms)).toList fun s => ⟨l.kind, l.text, s⟩ :: ms := by
  obtain ⟨spaced, cs, hvalid, hvisible⟩ := h
  obtain ⟨s, d, ds, hds, ht, hrow'⟩ := exists_first_of_visible hvalid (hvisible ▸ hrow)
  exact (spells_of_visible hds ht hrow' hms).2

/-- The tokens of a text without invalid ones. -/
theorem lexemes_tokens {text : String} (h : Valid text.toList) :
    (TokenStream.ofText text).tokens.map Token.lexeme = visible true text.toList := by
  have hvalid : ∀ t ∈ Token.ofText text, t.isSignificant = !t.kind.isTrivia := by
    intro t ht
    have hne : t.kind ≠ .invalid := by
      intro hi
      refine h t.lexeme (List.mem_map_of_mem (List.mem_filter.2 ⟨ht, ?_⟩)) hi
      rw [hi]
      rfl
    simp [Token.isSignificant, hne]
  change ((Token.ofText text).filter Token.isSignificant).map Token.lexeme =
    (((Token.ofText text).filter (·.kind != .blank)).map Token.lexeme).filter _
  rw [List.filter_map, List.filter_filter, List.filter_congr hvalid]
  congr 1
  refine List.filter_congr fun t _ => ?_
  rw [Function.comp_apply, Token.kind_lexeme]
  cases t.kind <;> rfl

/-- Where reading a text starts. -/
theorem fromText_start {text : String} (h : Valid text.toList) (n m : Nat) :
    (⟨(TokenStream.ofText text).tokens, n, m⟩ : Cursor).FromText :=
  ⟨true, text.toList, h, lexemes_tokens h⟩

end Cursor

/-- A text without faulty tokens. -/
theorem TokenStream.valid {text : String} (h : (TokenStream.ofText text).diagnostics = []) :
    Lexer.Valid text.toList := by
  intro l hl hi
  obtain ⟨t, ht, rfl⟩ := List.mem_map.1 hl
  have hfault : t.fault? = none := by
    have := List.filterMap_eq_nil_iff.1 h t (List.mem_filter.1 ht).1
    simpa [Token.diagnostic?] using this
  have hkind : t.kind = .invalid := hi
  simp [Token.fault?, hkind] at hfault

end ControlFile
