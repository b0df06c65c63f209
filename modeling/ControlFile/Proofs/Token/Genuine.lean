import ControlFile.Proofs.Token.Lexeme

/-!
# Tokens of a text

A token that has been cut from a text is a token by itself: written alone it is read as the same
token (`LexesAs`).  So what a parser takes from a text can be written again.

The kind of a token says something about its text: a string has its quotes and neither a quote nor
a newline between them (`LexesAs.exists_string`), and the mark for a unique name has one spelling
(`LexesAs.eq_unique`).
-/

namespace ControlFile

namespace Lexer

/-! ### A token ends inside the text -/

theorem fractionLength_le (cs : List Char) : fractionLength cs ≤ cs.length := by
  unfold fractionLength
  split
  · rename_i cs
    have := countWhile_le Char.isDigit cs
    split <;> simp only [List.length_cons] <;> omega
  · exact Nat.zero_le _

theorem decimalLength_le (cs : List Char) : decimalLength cs ≤ cs.length := by
  unfold decimalLength
  have h₁ := countWhile_le Char.isDigit cs
  have h₂ := fractionLength_le (cs.drop (countWhile Char.isDigit cs))
  rw [List.length_drop] at h₂
  split <;> omega

theorem powerLength_le (cs : List Char) : powerLength cs ≤ cs.length := by
  by_cases h : cs.head? = some '-'
  · cases cs with
    | nil => simp at h
    | cons c cs =>
      simp only [List.head?_cons, Option.some.injEq] at h
      subst h
      have := decimalLength_le cs
      rw [powerLength_minus]
      split <;> simp only [List.length_cons] <;> omega
  · rw [powerLength_of_head_ne h]
    exact decimalLength_le cs

theorem exponentLength_le (cs : List Char) : exponentLength cs ≤ cs.length := by
  unfold exponentLength
  split
  · rename_i c cs
    have := powerLength_le cs
    split <;> simp only [List.length_cons] <;> omega
  · exact Nat.zero_le _

theorem number_le (cs : List Char) : (number cs).2 ≤ cs.length := by
  simp only [number]
  have h₁ := countWhile_le Char.isDigit cs
  have h₂ := fractionLength_le (cs.drop (countWhile Char.isDigit cs))
  have h₃ := exponentLength_le (cs.drop
    (countWhile Char.isDigit cs + fractionLength (cs.drop (countWhile Char.isDigit cs))))
  rw [List.length_drop] at h₂ h₃
  omega

theorem word_le (c : Char) (cs : List Char) : (word c cs).2 ≤ cs.length := by
  have := countWhile_le isWordChar cs
  unfold word
  dsimp only
  split <;> exact this

theorem directive_le (cs : List Char) : (directive cs).2 ≤ cs.length := by
  unfold directive
  split
  · split
    · exact countWhile_le ..
    · exact Nat.zero_le _
  · exact Nat.zero_le _

theorem string_le (cs : List Char) : (string cs).2 ≤ cs.length := by
  simp only [string]
  have hle := countWhile_le (fun c => c != '\x22' && c != '\n') cs
  split
  · rename_i h
    have hlt : countWhile (fun c => c != '\x22' && c != '\n') cs < cs.length := by
      refine Nat.lt_of_le_of_ne hle fun heq => ?_
      rw [heq, List.drop_length] at h
      cases h
    exact hlt
  · exact hle

theorem punctuation_le (c : Char) (cs : List Char) : (punctuation c cs).2 ≤ cs.length := by
  unfold punctuation
  split
  · split
    · rename_i h
      cases cs with
      | nil => simp at h
      | cons d ds => simp
    · exact Nat.zero_le _
  · exact Nat.zero_le _

theorem commentLength?_le {cs : List Char} {n : Nat} (h : commentLength? cs = some n) :
    n ≤ cs.length := by
  fun_induction commentLength? cs generalizing n with
  | case1 => cases h
  | case2 cs =>
    cases h
    simp
  | case3 c cs _ ih =>
    obtain ⟨m, hm, rfl⟩ := Option.map_eq_some_iff.1 h
    exact Nat.succ_le_succ (ih hm)

theorem first_le (c : Char) (cs : List Char) : (first c cs).2 ≤ cs.length := by
  unfold first
  split
  · exact countWhile_le ..
  split
  · exact countWhile_le ..
  split
  · exact word_le c cs
  split
  · exact number_le cs
  split
  · exact countWhile_le ..
  split
  · exact string_le cs
  split
  · exact directive_le cs
  split
  · rename_i h
    rw [Bool.and_eq_true, decide_eq_true_eq] at h
    obtain ⟨cs, rfl⟩ := List.head?_eq_some_iff.1 h.2
    split
    · exact Nat.succ_le_succ (commentLength?_le ‹_›)
    · exact Nat.le_refl _
  · exact punctuation_le c cs

end Lexer

open Lexer

/-- **Tokens stand alone.**  What the lexer takes from a text is a token by itself. -/
theorem lexesAs_first {c : Char} {cs : List Char} (ht : (first c cs).1.isTrivia = false)
    (hi : (first c cs).1 ≠ .invalid) :
    LexesAs (first c cs).1 (String.ofList (c :: cs.take (first c cs).2)) := by
  have hn := first_le c cs
  have hsplit : cs = cs.take (first c cs).2 ++ cs.drop (first c cs).2 :=
    (List.take_append_drop _ _).symm
  have hlen : (cs.take (first c cs).2).length = (first c cs).2 := by
    rw [List.length_take, Nat.min_eq_left hn]
  refine ⟨c, cs.take (first c cs).2, String.toList_ofList, ?_⟩
  have hsame := first_append (c := c) (a := cs.drop (first c cs).2) closed_nil
    (cs.take (first c cs).2) (Nat.le_of_eq (by rw [← hsplit, hlen])) (by rw [← hsplit]; exact ht)
    fun _ => by rw [← hsplit]; exact hi
  rw [List.append_nil, ← hsplit] at hsame
  rw [hsame, hlen]

/-- Every lexeme that says something is a token by itself. -/
theorem lexesAs_of_mem_scan {offset : Nat} {spaced : Bool} {cs : List Char} {t : Token}
    (h : t ∈ scan offset spaced cs) (hs : t.isSignificant = true) : LexesAs t.kind t.text := by
  fun_induction scan offset spaced cs with
  | case1 => simp at h
  | case2 offset spaced c cs kind n heq text stop ih =>
    rw [List.mem_cons] at h
    rcases h with rfl | h
    · have hk : (first c cs).1 = kind := by rw [heq]
      have hn : (first c cs).2 = n := by rw [heq]
      simp only [Token.isSignificant, Bool.and_eq_true, Bool.not_eq_true', bne_iff_ne] at hs
      have := @lexesAs_first c cs (by rw [hk]; exact hs.1) (by rw [hk]; exact hs.2)
      rw [hk, hn] at this
      exact this
    · exact ih h

/-! ### Kinds and texts -/

theorem word_kind (c : Char) (cs : List Char) :
    (word c cs).1 = .ident ∨ ∃ k, (word c cs).1 = .keyword k := by
  unfold word
  dsimp only
  split
  · exact Or.inr ⟨_, rfl⟩
  · exact Or.inl rfl

theorem number_kind (cs : List Char) : (number cs).1 = .integer ∨ (number cs).1 = .decimal := by
  simp only [number]
  split
  · exact Or.inl rfl
  · exact Or.inr rfl

/-- Punctuation is a mark, an assignment or an operator. -/
theorem punctuation_kind (c : Char) (cs : List Char) : (punctuation c cs).1 = .invalid ∨
    (∃ m, (punctuation c cs).1 = .mark m) ∨ (∃ op, (punctuation c cs).1 = .assign op) ∨
      ∃ op, (punctuation c cs).1 = .operator op := by
  have hsingle : ∀ d, single d = .invalid ∨ (∃ m, single d = .mark m) ∨ (∃ op, single d = .assign op) ∨
      ∃ op, single d = .operator op := by
    intro d
    unfold single
    split <;> simp
  have hequals : ∀ d kind, withEquals d = some kind →
      (∃ op, kind = .assign op) ∨ ∃ op, kind = .operator op := by
    intro d kind h
    unfold withEquals at h
    split at h <;> cases h <;> simp
  unfold punctuation
  split
  · rename_i kind hk
    split
    · exact Or.inr (Or.inr (hequals c kind hk))
    · exact hsingle c
  · exact hsingle c

/-- Only a quote starts a string, and only `#` a directive. -/
theorem first_of_ne {c : Char} (hq : c ≠ '\x22') (hh : c ≠ '#') (cs : List Char) :
    (first c cs).1 ≠ .string ∧ ∀ d, (first c cs).1 ≠ .directive d := by
  have hq' : ¬(c == '\x22') = true := by simpa using hq
  have hh' : ¬(c == '#') = true := by simpa using hh
  unfold first
  rw [if_neg hq', if_neg hh']
  split
  · exact ⟨by simp, by simp⟩
  split
  · exact ⟨by simp, by simp⟩
  split
  · rcases word_kind c cs with h | ⟨k, h⟩ <;> rw [h] <;> exact ⟨by simp, by simp⟩
  split
  · rcases number_kind cs with h | h <;> rw [h] <;> exact ⟨by simp, by simp⟩
  split
  · exact ⟨by simp, by simp⟩
  split
  · split <;> exact ⟨by simp, by simp⟩
  · rcases punctuation_kind c cs with h | ⟨m, h⟩ | ⟨op, h⟩ | ⟨op, h⟩ <;> rw [h] <;>
      exact ⟨by simp, by simp⟩

/-- Only a letter starts a name. -/
theorem isAlpha_of_first {c : Char} {cs : List Char} (h : (first c cs).1 = .ident) :
    c.isAlpha = true := by
  refine Decidable.byContradiction fun halpha => ?_
  unfold first at h
  rw [if_neg halpha] at h
  split at h
  · cases h
  split at h
  · cases h
  split at h
  · rcases number_kind cs with hk | hk <;> rw [hk] at h <;> cases h
  split at h
  · cases h
  split at h
  · unfold string at h
    dsimp only at h
    split at h <;> cases h
  split at h
  · unfold directive at h
    split at h
    · split at h <;> cases h
    · cases h
  split at h
  · split at h <;> cases h
  · rcases punctuation_kind c cs with hk | ⟨m, hk⟩ | ⟨op, hk⟩ | ⟨op, hk⟩ <;> rw [hk] at h <;> cases h

/-- A string has its quotes, and no quote and no newline between them. -/
theorem LexesAs.exists_string {text : String} (h : LexesAs .string text) :
    ∃ inner : String, text = "\"" ++ inner ++ "\"" ∧ '\x22' ∉ inner.toList ∧
      '\n' ∉ inner.toList := by
  obtain ⟨c, cs, htext, hfirst⟩ := h
  have hc : c = '\x22' := by
    refine Decidable.byContradiction fun hq => ?_
    by_cases hh : c = '#'
    · subst hh
      have hd : first '#' cs = directive cs := rfl
      rw [hd, directive.eq_def] at hfirst
      split at hfirst
      · split at hfirst <;> cases hfirst
      · cases hfirst
    · exact (first_of_ne hq hh cs).1 (by rw [hfirst])
  subst hc
  have hs : first '\x22' cs = string cs := rfl
  rw [hs] at hfirst
  simp only [string] at hfirst
  split at hfirst
  · rename_i hhead
    simp only [Prod.mk.injEq, true_and] at hfirst
    obtain ⟨w, rfl, hmem⟩ : ∃ w, cs = w ++ ['\x22'] ∧ ∀ d ∈ w, d ≠ '\x22' ∧ d ≠ '\n' := by
      refine ⟨cs.takeWhile (fun c => c != '\x22' && c != '\n'), ?_, fun d hd => ?_⟩
      · rw [drop_countWhile] at hhead
        have hlen : (cs.dropWhile (fun c => c != '\x22' && c != '\n')).length = 1 := by
          rw [← drop_countWhile, List.length_drop]
          omega
        obtain ⟨d, hd⟩ := List.length_eq_one_iff.1 hlen
        rw [hd, List.head?_cons, Option.some.injEq] at hhead
        have := List.takeWhile_append_dropWhile (p := fun c => c != '\x22' && c != '\n') (l := cs)
        rw [hd, hhead] at this
        exact this.symm
      · simpa using List.all_eq_true.1 List.all_takeWhile d hd
    refine ⟨String.ofList w, ?_, ?_, ?_⟩
    · rw [← String.ofList_toList (s := text), htext]
      simp [String.append_assoc]
    · rw [String.toList_ofList]
      exact fun h => (hmem _ h).1 rfl
    · rw [String.toList_ofList]
      exact fun h => (hmem _ h).2 rfl
  · cases hfirst

theorem DirectiveWord.eq_of_ofWord {text : String} (h : DirectiveWord.ofWord text = .unique) :
    text = "#m_unique" := by
  unfold DirectiveWord.ofWord at h
  cases hl : DirectiveWord.spellings.lookup text with
  | none =>
    rw [hl] at h
    cases h
  | some d =>
    rw [hl, Option.getD_some] at h
    subst h
    obtain ⟨l₁, l₂, heq, -⟩ := List.lookup_eq_some_iff.1 hl
    have hmem : (text, DirectiveWord.unique) ∈ DirectiveWord.spellings := by
      rw [heq]
      simp
    simpa [DirectiveWord.spellings] using hmem

theorem LexesAs.eq_unique {text : String} (h : LexesAs (.directive .unique) text) :
    text = "#m_unique" := by
  obtain ⟨c, cs, htext, hfirst⟩ := h
  have hc : c = '#' := by
    refine Decidable.byContradiction fun hh => ?_
    by_cases hq : c = '\x22'
    · subst hq
      have hs : first '\x22' cs = string cs := rfl
      rw [hs] at hfirst
      simp only [string] at hfirst
      split at hfirst <;> cases hfirst
    · exact (first_of_ne hq hh cs).2 .unique (by rw [hfirst])
  subst hc
  have hd : first '#' cs = directive cs := rfl
  rw [hd, directive.eq_def] at hfirst
  split at hfirst
  · split at hfirst
    · simp only [Prod.mk.injEq, TokenKind.directive.injEq] at hfirst
      rw [hfirst.2, List.take_length] at hfirst
      rw [← String.ofList_toList (s := text), htext]
      exact DirectiveWord.eq_of_ofWord hfirst.1
    · cases hfirst
  · cases hfirst

end ControlFile
