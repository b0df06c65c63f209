import ControlFile.Proofs.Token.Coverage
import ControlFile.Proofs.Token.Genuine
import ControlFile.Proofs.Token.Rules

/-!
# The longest token is taken

What `Lexer.first` cuts from a text is what the rules of tokens choose there (`stands_first`), and
so is every token of a text (`Token.longest_match`).
-/

namespace ControlFile

namespace Lexer

open scoped Computability

variable {p q : Char → Bool} {u v : List Char}

/-! ### Words of the languages -/

theorem mem_oneOf {w : List Char} : w ∈ oneOf p ↔ ∃ c, p c = true ∧ w = [c] := Iff.rfl

theorem mem_kstar_oneOf {w : List Char} : w ∈ (oneOf p)∗ ↔ ∀ c ∈ w, p c = true := by
  rw [Language.mem_kstar]
  constructor
  · rintro ⟨ws, rfl, hws⟩ c hc
    obtain ⟨x, hx, hcx⟩ := List.mem_flatten.1 hc
    obtain ⟨d, hd, rfl⟩ := hws x hx
    rw [List.mem_singleton.1 hcx]
    exact hd
  · intro h
    refine ⟨w.map ([·]), by simp [List.flatten_eq_flatMap, List.flatMap_map], fun x hx => ?_⟩
    obtain ⟨c, hc, rfl⟩ := List.mem_map.1 hx
    exact ⟨c, h c hc, rfl⟩

theorem mem_oneOf_mul {l : Language Char} {w : List Char} :
    w ∈ oneOf p * l ↔ ∃ c cs, w = c :: cs ∧ p c = true ∧ cs ∈ l := by
  rw [Language.mem_mul]
  constructor
  · rintro ⟨_, ⟨c, hc, rfl⟩, cs, hcs, rfl⟩
    exact ⟨c, cs, rfl, hc, hcs⟩
  · rintro ⟨c, cs, rfl, hc, hcs⟩
    exact ⟨[c], ⟨c, hc, rfl⟩, cs, hcs, rfl⟩

/-- A character, and then others. -/
theorem mem_word {w : List Char} :
    w ∈ oneOf p * (oneOf q)∗ ↔ ∃ c cs, w = c :: cs ∧ p c = true ∧ ∀ d ∈ cs, q d = true := by
  simp only [mem_oneOf_mul, mem_kstar_oneOf]

theorem mem_digits {w : List Char} : w ∈ digits ↔ w ≠ [] ∧ ∀ d ∈ w, d.isDigit = true := by
  rw [digits, mem_word]
  constructor
  · rintro ⟨c, cs, rfl, hc, hcs⟩
    exact ⟨List.cons_ne_nil _ _, List.forall_mem_cons.2 ⟨hc, hcs⟩⟩
  · rintro ⟨hne, h⟩
    obtain ⟨c, cs, rfl⟩ := List.exists_cons_of_ne_nil hne
    exact ⟨c, cs, rfl, List.forall_mem_cons.1 h⟩

theorem mem_fraction {w : List Char} : w ∈ fraction ↔ ∃ ds, w = '.' :: ds ∧ ds ∈ digits := by
  rw [fraction, mem_oneOf_mul]
  constructor
  · rintro ⟨c, cs, rfl, hc, hcs⟩
    rw [eq_of_beq hc]
    exact ⟨cs, rfl, hcs⟩
  · rintro ⟨ds, rfl, hds⟩
    exact ⟨'.', ds, rfl, rfl, hds⟩

theorem mem_optional {l : Language Char} {w : List Char} : w ∈ 1 + l ↔ w = [] ∨ w ∈ l := by
  rw [Language.mem_add, Language.mem_one]

/-! ### Stretches of characters -/

theorem length_le_countWhile (hu : ∀ c ∈ u, p c = true) (v : List Char) :
    u.length ≤ countWhile p (u ++ v) := by
  rw [countWhile, List.takeWhile_append_of_pos hu, List.length_append]
  exact Nat.le_add_right _ _

theorem of_mem_take_countWhile {cs : List Char} : ∀ c ∈ cs.take (countWhile p cs), p c = true := by
  rw [take_countWhile]
  exact fun c hc => List.all_eq_true.1 List.all_takeWhile c hc

theorem take_countWhile_ne_nil {cs : List Char} (h : countWhile p cs ≠ 0) :
    cs.take (countWhile p cs) ≠ [] := by
  rw [take_countWhile]
  exact List.ne_nil_of_length_pos (Nat.pos_of_ne_zero h)

theorem take_digits {cs : List Char} (h : countWhile Char.isDigit cs ≠ 0) :
    cs.take (countWhile Char.isDigit cs) ∈ digits :=
  mem_digits.2 ⟨take_countWhile_ne_nil h, of_mem_take_countWhile⟩

/-! ### Numbers -/

/-- Digits before something else are all the digits there are. -/
theorem countWhile_digits {ds cs : List Char} (hds : ds ∈ digits)
    (hcs : ∀ c, cs.head? = some c → c.isDigit = false) :
    countWhile Char.isDigit (ds ++ cs) = ds.length :=
  countWhile_of_all (mem_digits.1 hds).2 hcs

theorem length_le_fractionLength {w : List Char} (hw : w ∈ fraction) (v : List Char) :
    w.length ≤ fractionLength (w ++ v) := by
  obtain ⟨ds, rfl, hds⟩ := mem_fraction.1 hw
  have hle := length_le_countWhile (mem_digits.1 hds).2 v
  have hpos := List.length_pos_iff.2 (mem_digits.1 hds).1
  rw [List.cons_append, fractionLength_point, if_neg (by omega), List.length_cons]
  omega

theorem take_fraction {cs : List Char} (h : fractionLength cs ≠ 0) :
    cs.take (fractionLength cs) ∈ fraction := by
  cases cs with
  | nil => exact absurd rfl h
  | cons c cs =>
    by_cases hc : c = '.'
    · subst hc
      rw [fractionLength_point] at h ⊢
      split at h
      · exact absurd rfl h
      · rename_i hdigits
        rw [if_neg hdigits, List.take_succ_cons]
        exact mem_fraction.2 ⟨_, rfl, take_digits hdigits⟩
    · exact absurd (fractionLength_cons_ne hc cs) h

theorem take_optional_fraction (cs : List Char) : cs.take (fractionLength cs) ∈ 1 + fraction := by
  rw [mem_optional]
  by_cases h : fractionLength cs = 0
  · exact .inl (by rw [h, List.take_zero])
  · exact .inr (take_fraction h)

/-- A number without an exponent. -/
theorem length_le_decimalLength {ds fs : List Char} (hds : ds ∈ digits) (hfs : fs ∈ 1 + fraction)
    (v : List Char) : (ds ++ fs).length ≤ decimalLength (ds ++ fs ++ v) := by
  have hdigits := length_le_countWhile (mem_digits.1 hds).2 (fs ++ v)
  have hpos := List.length_pos_iff.2 (mem_digits.1 hds).1
  rw [List.append_assoc, decimalLength, if_neg (by omega), List.length_append]
  rcases mem_optional.1 hfs with rfl | hfs
  · rw [List.length_nil]
    omega
  · have hall : countWhile Char.isDigit (ds ++ (fs ++ v)) = ds.length := by
      refine countWhile_digits hds fun c hc => ?_
      obtain ⟨es, rfl, -⟩ := mem_fraction.1 hfs
      cases hc
      rfl
    rw [hall, List.drop_left]
    exact Nat.add_le_add_left (length_le_fractionLength hfs v) _

theorem take_decimal {cs : List Char} (h : decimalLength cs ≠ 0) :
    cs.take (decimalLength cs) ∈ digits * (1 + fraction) := by
  unfold decimalLength at h ⊢
  split at h
  · exact absurd rfl h
  · rename_i hdigits
    rw [if_neg hdigits, List.take_add]
    exact Language.append_mem_mul (take_digits hdigits) (take_optional_fraction _)

theorem length_le_powerLength {w : List Char} (hw : w ∈ signedPower) (v : List Char) :
    w.length ≤ powerLength (w ++ v) := by
  obtain ⟨ss, hss, ps, hps, rfl⟩ := Language.mem_mul.1 hw
  obtain ⟨ds, hds, fs, hfs, rfl⟩ := Language.mem_mul.1 hps
  have hle := length_le_decimalLength hds hfs v
  have hpos := List.length_pos_iff.2 (mem_digits.1 hds).1
  rcases mem_optional.1 hss with rfl | ⟨c, hc, rfl⟩
  · rw [List.nil_append, powerLength_of_head_ne]
    · exact hle
    · obtain ⟨hne, hdigit⟩ := mem_digits.1 hds
      obtain ⟨d, ds, rfl⟩ := List.exists_cons_of_ne_nil hne
      have hd := (List.forall_mem_cons.1 hdigit).1
      rintro ⟨⟩
      cases hd
  · rw [eq_of_beq hc, List.singleton_append, List.cons_append, powerLength_minus, List.length_cons,
      if_neg ?_]
    · exact Nat.succ_le_succ hle
    · rw [List.length_append] at hle
      omega

theorem take_power {cs : List Char} (h : powerLength cs ≠ 0) :
    cs.take (powerLength cs) ∈ signedPower := by
  by_cases hminus : cs.head? = some '-'
  · obtain ⟨cs, rfl⟩ := List.head?_eq_some_iff.1 hminus
    rw [powerLength_minus] at h ⊢
    split at h
    · exact absurd rfl h
    · rename_i hdecimal
      rw [if_neg hdecimal, List.take_succ_cons]
      exact Language.append_mem_mul (a := ['-']) (mem_optional.2 (.inr (mem_oneOf.2 ⟨'-', rfl, rfl⟩)))
        (take_decimal hdecimal)
  · rw [powerLength_of_head_ne hminus] at h ⊢
    exact Language.append_mem_mul (a := []) (mem_optional.2 (.inl rfl)) (take_decimal h)

theorem length_le_exponentLength {w : List Char} (hw : w ∈ exponentPart) (v : List Char) :
    w.length ≤ exponentLength (w ++ v) := by
  obtain ⟨c, ps, rfl, hc, hps⟩ := mem_oneOf_mul.1 hw
  have hle := length_le_powerLength hps v
  have hpos : ps.length ≠ 0 := by
    rw [Ne, List.length_eq_zero_iff]
    rintro rfl
    obtain ⟨_, -, qs, hqs, heq⟩ := Language.mem_mul.1 hps
    obtain ⟨ds, hds, fs, -, rfl⟩ := Language.mem_mul.1 hqs
    simp only [List.append_eq_nil_iff] at heq
    exact (mem_digits.1 hds).1 heq.2.1
  rw [List.cons_append, exponentLength, hc, Bool.true_and, if_pos (by simp; omega), List.length_cons]
  omega

theorem take_exponent {cs : List Char} (h : exponentLength cs ≠ 0) :
    cs.take (exponentLength cs) ∈ exponentPart := by
  cases cs with
  | nil => exact absurd rfl h
  | cons c cs =>
    rw [exponentLength] at h ⊢
    split at h
    · rename_i hexponent
      rw [if_pos hexponent, List.take_succ_cons]
      simp only [Bool.and_eq_true, bne_iff_ne] at hexponent
      exact mem_oneOf_mul.2 ⟨c, _, rfl, hexponent.1, take_power hexponent.2⟩
    · exact absurd rfl h

/-! ### Comments -/

theorem commentLength?_cons {c : Char} {cs : List Char} (h : ¬['*', '/'] <+: c :: cs) :
    commentLength? (c :: cs) = (commentLength? cs).map (· + 1) := by
  rw [commentLength?]
  rintro rest rfl rfl
  exact h ⟨rest, rfl⟩

theorem commentLength?_eq_none_iff {cs : List Char} :
    commentLength? cs = none ↔ ¬['*', '/'] <:+: cs := by
  induction cs with
  | nil => simp [commentLength?]
  | cons c cs ih =>
    by_cases h : ['*', '/'] <+: c :: cs
    · obtain ⟨rest, hrest⟩ := h
      rw [← hrest]
      simp [commentLength?, List.infix_cons_iff]
    · rw [commentLength?_cons h, Option.map_eq_none_iff, ih, List.infix_cons_iff]
      simp [h]

/-- A comment ends with the first mark that closes it. -/
theorem commentLength?_eq_some_iff {cs : List Char} {n : Nat} :
    commentLength? cs = some n ↔ ∃ body rest, cs = body ++ '*' :: '/' :: rest ∧
      n = body.length + 2 ∧ ¬['*', '/'] <:+: body ++ ['*'] := by
  constructor
  · intro hn
    induction cs generalizing n with
    | nil => cases hn
    | cons c cs ih =>
      by_cases h : ['*', '/'] <+: c :: cs
      · obtain ⟨rest, hrest⟩ := h
        rw [← hrest] at hn ⊢
        cases hn
        exact ⟨[], rest, rfl, rfl, by decide⟩
      · rw [commentLength?_cons h, Option.map_eq_some_iff] at hn
        obtain ⟨m, hm, rfl⟩ := hn
        obtain ⟨body, rest, rfl, rfl, hbody⟩ := ih hm
        refine ⟨c :: body, rest, rfl, rfl, fun hinfix => ?_⟩
        rw [List.cons_append, List.infix_cons_iff] at hinfix
        refine hinfix.elim (fun hstart => h (hstart.trans ?_)) hbody
        exact ⟨'/' :: rest, by simp⟩
  · rintro ⟨body, rest, rfl, rfl, hbody⟩
    induction body with
    | nil => rfl
    | cons c body ih =>
      rw [List.cons_append, List.infix_cons_iff, not_or] at hbody
      rw [List.cons_append, commentLength?_cons, ih hbody.2]
      · rfl
      · intro hstart
        refine hbody.1 (List.prefix_of_prefix_length_le hstart ⟨'/' :: rest, by simp⟩ ?_)
        simp

/-! ### What starts with which character -/

/-- Only a comment starts with a mark and is none. -/
theorem first_of_single {c : Char} (hc : single c ≠ .invalid) {cs : List Char}
    (hcs : ¬(c = '/' ∧ cs.head? = some '*')) : first c cs = punctuation c cs := by
  have hslash : ¬(c == '/' && decide (cs.head? = some '*')) = true := by simpa using hcs
  unfold single at hc
  split at hc <;> first
    | exact absurd rfl hc
    | rfl
    | (rw [first, if_neg hslash]; rfl)

theorem first_of_comment (cs : List Char) : first '/' ('*' :: cs) =
    match commentLength? cs with
    | some n => (.comment .block, n + 1)
    | none => (.unclosedComment, cs.length + 1) := rfl

/-! ### What each rule takes -/

/-- A text that the rule takes is no longer than the first token.  If it is as long, it is of the same
kind, or the rule gives way to one that is spelled out. -/
def Rule.YieldsTo (rule : Rule) : Prop :=
  ∀ u v, rule.Takes u v → ∃ c w, u = c :: w ∧ w.length ≤ (first c (w ++ v)).2 ∧
    (w.length = (first c (w ++ v)).2 → rule.kind = (first c (w ++ v)).1 ∨ rule.exact = false ∧
      ∃ winner ∈ rules, winner.exact = true ∧ winner.kind = (first c (w ++ v)).1 ∧
        winner.Takes (c :: w) v)

theorem mem_rules_general {rule : Rule} (h : rule ∈ generalRules) : rule ∈ rules := by
  simp [rules, h]

theorem mem_rules_keyword (k : Keyword) : Rule.keyword k ∈ rules := by
  have hk : k ∈ Keyword.all := by cases k <;> decide
  simp only [rules, List.mem_append, List.mem_map]
  exact .inl (.inl (.inr ⟨k, hk, rfl⟩))

theorem mem_rules_directive {spelling : String × DirectiveWord}
    (h : spelling ∈ DirectiveWord.spellings) : Rule.directive spelling ∈ rules := by
  simp only [rules, List.mem_append, List.mem_map]
  exact .inl (.inr ⟨spelling, h, rfl⟩)

/-- Keywords are names by themselves. -/
theorem keyword_mem (k : Keyword) :
    k.word.toList ∈ oneOf Char.isAlpha * (oneOf isWordChar)∗ := by
  rw [mem_word]
  cases k <;> exact ⟨_, _, rfl, by decide, List.all_eq_true.1 (by decide)⟩

/-- The spelling of a directive. -/
theorem directive_mem {spelling : String × DirectiveWord} (h : spelling ∈ DirectiveWord.spellings) :
    spelling.1.toList ∈ oneOf (· == '#') * (oneOf startsDirective * (oneOf isWordChar)∗) := by
  have hall : ∀ s ∈ DirectiveWord.spellings, s.1.toList.head?.any (· == '#') = true ∧
      s.1.toList.tail.head?.any startsDirective = true ∧
      s.1.toList.tail.tail.all isWordChar = true := by
    decide +kernel
  obtain ⟨hmark, hstart, hword⟩ := hall spelling h
  generalize spelling.1.toList = cs at hmark hstart hword ⊢
  rcases cs with _ | ⟨c, _ | ⟨d, w⟩⟩
  · cases hmark
  · cases hstart
  · exact mem_oneOf_mul.2 ⟨c, _, rfl, hmark, mem_word.2 ⟨d, w, rfl, hstart,
      List.all_eq_true.1 hword⟩⟩

theorem ofWord_spelling {spelling : String × DirectiveWord} (h : spelling ∈ DirectiveWord.spellings) :
    DirectiveWord.ofWord spelling.1 = spelling.2 := by
  revert spelling
  decide +kernel

/-- A word is the spelling of a directive, or unknown. -/
theorem ofWord_cases (text : String) :
    (∃ spelling ∈ DirectiveWord.spellings, spelling.1 = text ∧
      DirectiveWord.ofWord text = spelling.2) ∨ DirectiveWord.ofWord text = .unknown := by
  unfold DirectiveWord.ofWord
  cases hd : DirectiveWord.spellings.lookup text with
  | none => exact .inr rfl
  | some d =>
    obtain ⟨l₁, l₂, heq, -⟩ := List.lookup_eq_some_iff.1 hd
    exact .inl ⟨(text, d), by simp [heq], rfl, rfl⟩

theorem isWordChar_of_startsDirective {c : Char} (hc : startsDirective c = true) :
    isWordChar c = true := by
  simp only [startsDirective, isWordChar, Char.isAlphanum, Bool.or_eq_true] at hc ⊢
  tauto

theorem isWordChar_of_mem {w : List Char} (hw : w ∈ oneOf startsDirective * (oneOf isWordChar)∗) :
    ∀ c ∈ w, isWordChar c = true := by
  obtain ⟨c, cs, rfl, hc, hcs⟩ := mem_word.1 hw
  exact List.forall_mem_cons.2 ⟨isWordChar_of_startsDirective hc, hcs⟩

theorem first_of_hash {w : List Char} (hw : w ∈ oneOf startsDirective * (oneOf isWordChar)∗)
    (v : List Char) : first '#' (w ++ v) =
      (.directive (.ofWord (String.ofList ('#' :: (w ++ v).take (countWhile isWordChar (w ++ v))))),
        countWhile isWordChar (w ++ v)) := by
  obtain ⟨c, cs, rfl, hc, -⟩ := mem_word.1 hw
  exact if_pos hc

theorem first_of_quote (cs : List Char) : first '\x22' cs =
    if (cs.drop (countWhile isQuotable cs)).head? = some '\x22' then
      (.string, countWhile isQuotable cs + 1)
    else (.invalid, countWhile isQuotable cs) := rfl

theorem first_of_point {cs : List Char} (h : fractionLength ('.' :: cs) ≠ 0) :
    first '.' cs = (.decimal, countWhile Char.isDigit cs) := by
  have hpoint : ('.' == '.' && fractionLength ('.' :: cs) != 0) = true := by simpa using h
  rw [first, if_pos hpoint]
  rfl

/-- A number whose digits before the fraction are known. -/
theorem number_digits {ds cs : List Char} (hds : ∀ d ∈ ds, d.isDigit = true)
    (hcs : ∀ c, cs.head? = some c → c.isDigit = false) : number (ds ++ cs) =
      (if fractionLength cs + exponentLength (cs.drop (fractionLength cs)) = 0 then .integer
        else .decimal,
        ds.length + fractionLength cs + exponentLength (cs.drop (fractionLength cs))) := by
  simp only [number, countWhile_of_all hds hcs, List.drop_left, List.drop_length_add_append]

theorem head_fraction {fs : List Char} (hfs : fs ∈ fraction) (v : List Char) :
    ∀ d, (fs ++ v).head? = some d → d.isDigit = false := by
  obtain ⟨ds, rfl, -⟩ := mem_fraction.1 hfs
  rintro d ⟨⟩
  rfl

theorem head_exponent {es : List Char} (hes : es ∈ exponentPart) (v : List Char) :
    ∀ d, (es ++ v).head? = some d → d.isDigit = false := by
  obtain ⟨e, ps, rfl, he, -⟩ := mem_oneOf_mul.1 hes
  rintro d ⟨⟩
  simp only [Bool.or_eq_true, beq_iff_eq] at he
  rcases he with rfl | rfl <;> rfl

theorem fractionLength_exponent {fs es : List Char} (hfs : fs ∈ 1 + fraction)
    (hes : es ∈ exponentPart) (v : List Char) : fractionLength (fs ++ (es ++ v)) = fs.length := by
  rcases mem_optional.1 hfs with rfl | hfs
  · obtain ⟨e, ps, rfl, he, -⟩ := mem_oneOf_mul.1 hes
    refine fractionLength_cons_ne ?_ _
    rintro rfl
    cases he
  · obtain ⟨ds, rfl, hds⟩ := mem_fraction.1 hfs
    have hpos := List.length_pos_iff.2 (mem_digits.1 hds).1
    rw [List.cons_append, fractionLength_point, countWhile_digits hds (head_exponent hes v),
      if_neg (by omega), List.length_cons]

/-- A mark of one character that ends there is the first token. -/
theorem kind_of_single {c : Char} {cs : List Char} (hc : single c ≠ .invalid)
    (hn : (first c cs).2 = 0) : (first c cs).1 = single c := by
  by_cases hcomment : c = '/' ∧ cs.head? = some '*'
  · obtain ⟨rfl, hhead⟩ := hcomment
    obtain ⟨cs, rfl⟩ := List.head?_eq_some_iff.1 hhead
    rw [first_of_comment] at hn
    split at hn <;> cases hn
  · rw [first_of_single hc hcomment] at hn ⊢
    unfold punctuation at hn ⊢
    split
    · rename_i hequals
      rw [hequals] at hn
      dsimp only at hn
      split at hn
      · cases hn
      · rename_i hhead
        rw [if_neg hhead]
    · rfl

theorem first_of_withEquals {c : Char} {kind : TokenKind} (hc : withEquals c = some kind)
    (cs : List Char) : first c ('=' :: cs) = (kind, 1) := by
  have hsingle : single c ≠ .invalid := by
    unfold withEquals at hc
    split at hc <;> first | (cases hc; done) | decide
  rw [first_of_single hsingle (by simp), punctuation, hc]
  rfl

/-- A mark is one character, or a character and an equals sign. -/
theorem spelling_of_mem_marks {m : String × TokenKind} (h : m ∈ marks) :
    (∃ c, m.1.toList = [c] ∧ single c = m.2 ∧ m.2 ≠ .invalid) ∨
      ∃ c, m.1.toList = [c, '='] ∧ withEquals c = some m.2 := by
  simp only [marks, List.mem_cons, List.not_mem_nil, or_false] at h
  rcases h with rfl | rfl | rfl | rfl | rfl | rfl | rfl | rfl | h
  iterate 8 exact .inr ⟨_, rfl, rfl⟩
  left
  rcases h with rfl | rfl | rfl | rfl | rfl | rfl | rfl | rfl | rfl | rfl | rfl | rfl | rfl | rfl |
    rfl | rfl | rfl | rfl | rfl <;> exact ⟨_, rfl, rfl, by decide⟩

namespace Rule

/-- A rule for words of one character and others behind it. -/
theorem yieldsTo_word {kind : TokenKind}
    (h : ∀ c cs, p c = true → first c cs = (kind, countWhile q cs)) :
    (regular kind (oneOf p * (oneOf q)∗)).YieldsTo := by
  rintro u v hu
  obtain ⟨c, w, rfl, hc, hw⟩ := mem_word.1 hu
  refine ⟨c, w, rfl, ?_⟩
  rw [h c _ hc]
  exact ⟨length_le_countWhile hw v, fun _ => .inl rfl⟩

theorem yieldsTo_blank : blank.YieldsTo := yieldsTo_word fun _ cs hc => first_of_isSpace hc cs

theorem yieldsTo_lineComment : lineComment.YieldsTo :=
  yieldsTo_word fun _ _ hc => by rw [eq_of_beq hc]; rfl

theorem yieldsTo_blockComment : blockComment.YieldsTo := by
  rintro u v ⟨body, rfl, hbody⟩
  have hlength : commentLength? (body ++ ['*', '/'] ++ v) = some (body.length + 2) :=
    commentLength?_eq_some_iff.2 ⟨body, v, by simp, rfl, hbody⟩
  refine ⟨'/', _, rfl, ?_⟩
  rw [List.cons_append, first_of_comment, hlength]
  simp [blockComment]

theorem yieldsTo_unclosedComment : unclosedComment.YieldsTo := by
  rintro u v ⟨body, rfl, hbody, rfl⟩
  refine ⟨'/', _, rfl, ?_⟩
  rw [List.append_nil, first_of_comment, commentLength?_eq_none_iff.2 hbody]
  simp [unclosedComment]

theorem take_eq_left {n : Nat} (h : u.length = n) : (u ++ v).take n = u := by
  rw [← h, List.take_left]

/-- The word may be a keyword. -/
theorem yieldsTo_name : name.YieldsTo := by
  rintro u v hu
  obtain ⟨c, w, rfl, hc, hw⟩ := mem_word.1 hu
  refine ⟨c, w, rfl, ?_⟩
  rw [first_of_isAlpha hc, word]
  have hle := length_le_countWhile hw v
  cases hk : Keyword.ofWord? (String.ofList (c :: (w ++ v).take (countWhile isWordChar (w ++ v)))) with
  | none => exact ⟨hle, fun _ => .inl rfl⟩
  | some k =>
    refine ⟨hle, fun hlength => .inr ⟨rfl, keyword k, ?_, rfl, rfl, ?_⟩⟩
    · exact mem_rules_keyword k
    · rw [take_eq_left hlength] at hk
      have hword := List.find?_some hk
      change _ = k.word.toList
      rw [eq_of_beq hword, String.toList_ofList]

theorem yieldsTo_keyword (k : Keyword) : (keyword k).YieldsTo := by
  rintro u v rfl
  obtain ⟨c, w, hu, hc, hw⟩ := mem_word.1 (keyword_mem k)
  refine ⟨c, w, hu, ?_⟩
  rw [first_of_isAlpha hc, word]
  have hle := length_le_countWhile hw v
  refine ⟨?_, fun hlength => .inl ?_⟩
  · split <;> exact hle
  · have hn : w.length = countWhile isWordChar (w ++ v) := by
      revert hlength
      split <;> exact id
    rw [take_eq_left hn, ← hu, String.ofList_toList, Keyword.ofWord?_word]
    rfl

/-! #### Directives -/

theorem yieldsTo_unknownDirective : unknownDirective.YieldsTo := by
  rintro u v hu
  obtain ⟨c, w, rfl, hc, hw⟩ := mem_oneOf_mul.1 hu
  refine ⟨c, w, rfl, ?_⟩
  rw [eq_of_beq hc, first_of_hash hw v]
  have hle := length_le_countWhile (isWordChar_of_mem hw) v
  refine ⟨hle, fun hlength => ?_⟩
  rw [take_eq_left hlength]
  rcases ofWord_cases (String.ofList ('#' :: w)) with ⟨spelling, hmem, hword, hkind⟩ | hunknown
  · refine .inr ⟨rfl, directive spelling, mem_rules_directive hmem, rfl, by rw [hkind]; rfl, ?_⟩
    change _ = spelling.1.toList
    rw [hword, String.toList_ofList]
  · rw [hunknown]
    exact .inl rfl

theorem yieldsTo_directive {spelling : String × DirectiveWord}
    (h : spelling ∈ DirectiveWord.spellings) : (directive spelling).YieldsTo := by
  rintro u v rfl
  obtain ⟨c, w, hu, hc, hw⟩ := mem_oneOf_mul.1 (directive_mem h)
  refine ⟨c, w, hu, ?_⟩
  rw [eq_of_beq hc, first_of_hash hw v]
  refine ⟨length_le_countWhile (isWordChar_of_mem hw) v, fun hlength => .inl ?_⟩
  rw [take_eq_left hlength, ← eq_of_beq hc, ← hu, String.ofList_toList, ofWord_spelling h]
  rfl

/-! #### Strings -/

theorem yieldsTo_unclosedString : unclosedString.YieldsTo := by
  rintro u v hu
  obtain ⟨c, w, rfl, hc, hw⟩ := mem_word.1 hu
  refine ⟨c, w, rfl, ?_⟩
  have hle := length_le_countWhile hw v
  rw [eq_of_beq hc, first_of_quote]
  split
  · exact ⟨Nat.le_succ_of_le hle, fun h => absurd hle (by omega)⟩
  · exact ⟨hle, fun _ => .inl rfl⟩

theorem yieldsTo_string : string.YieldsTo := by
  rintro u v hu
  obtain ⟨_, hopen, _, ⟨d, hd, rfl⟩, rfl⟩ := Language.mem_mul.1 hu
  obtain ⟨c, w, rfl, hc, hw⟩ := mem_word.1 hopen
  refine ⟨c, w ++ [d], rfl, ?_⟩
  have hcount : countWhile isQuotable (w ++ [d] ++ v) = w.length := by
    rw [List.append_assoc]
    refine countWhile_of_all hw fun e he => ?_
    cases he
    rw [eq_of_beq hd]
    rfl
  rw [eq_of_beq hc, first_of_quote, hcount, List.append_assoc, List.drop_left, eq_of_beq hd]
  simp [string, regular]

/-! #### Numbers -/

theorem yieldsTo_integer : integer.YieldsTo := by
  rintro u v hu
  obtain ⟨c, w, rfl, hc, hw⟩ := mem_word.1 hu
  refine ⟨c, w, rfl, ?_⟩
  have hle := length_le_countWhile hw v
  rw [first_of_isDigit hc, number]
  refine ⟨by dsimp only; omega, fun hlength => .inl ?_⟩
  dsimp only at hlength ⊢
  rw [if_pos (by omega)]
  rfl

theorem yieldsTo_pointed : pointed.YieldsTo := by
  rintro u v hu
  obtain ⟨ds, hds, fs, hfs, rfl⟩ := Language.mem_mul.1 hu
  have hle := length_le_fractionLength hfs v
  cases ds with
  | nil =>
    obtain ⟨es, rfl, hes⟩ := mem_fraction.1 hfs
    refine ⟨'.', es, rfl, ?_⟩
    rw [first_of_point (by rw [List.cons_append] at hle; rw [List.length_cons] at hle; omega)]
    exact ⟨length_le_countWhile (mem_digits.1 hes).2 v, fun _ => .inl rfl⟩
  | cons c w =>
    obtain ⟨hc, hw⟩ := List.forall_mem_cons.1 (mem_kstar_oneOf.1 hds)
    refine ⟨c, w ++ fs, rfl, ?_⟩
    have hpos : fs.length ≠ 0 := by
      obtain ⟨es, rfl, -⟩ := mem_fraction.1 hfs
      simp
    rw [first_of_isDigit hc, List.append_assoc, number_digits hw (head_fraction hfs v), List.length_append]
    refine ⟨by dsimp only; omega, fun _ => .inl ?_⟩
    dsimp only
    rw [if_neg (by omega)]
    rfl

theorem yieldsTo_scaled : scaled.YieldsTo := by
  rintro u v hu
  obtain ⟨ds, hds, qs, hqs, rfl⟩ := Language.mem_mul.1 hu
  obtain ⟨fs, hfs, es, hes, rfl⟩ := Language.mem_mul.1 hqs
  obtain ⟨c, w, rfl, hc, hw⟩ := mem_word.1 hds
  refine ⟨c, w ++ (fs ++ es), rfl, ?_⟩
  have hle := length_le_exponentLength hes v
  have hpos : es.length ≠ 0 := by
    obtain ⟨e, ps, rfl, -⟩ := mem_oneOf_mul.1 hes
    simp
  have hfraction : fractionLength (fs ++ (es ++ v)) = fs.length := fractionLength_exponent hfs hes v
  have hhead : ∀ d, (fs ++ (es ++ v)).head? = some d → d.isDigit = false := by
    rcases mem_optional.1 hfs with rfl | hfs
    · exact head_exponent hes v
    · exact head_fraction hfs (es ++ v)
  rw [first_of_isDigit hc, List.append_assoc, List.append_assoc, number_digits hw hhead, hfraction,
    List.drop_left, List.length_append, List.length_append]
  refine ⟨by dsimp only; omega, fun _ => .inl ?_⟩
  dsimp only
  rw [if_neg (by omega)]
  rfl

/-! #### Marks -/

theorem yieldsTo_mark {m : String × TokenKind} (h : m ∈ marks) : (spelled m.1 m.2).YieldsTo := by
  rintro u v rfl
  rcases spelling_of_mem_marks h with ⟨c, hu, hsingle, hne⟩ | ⟨c, hu, hequals⟩
  · refine ⟨c, [], hu, Nat.zero_le _, fun hlength => .inl ?_⟩
    exact hsingle.symm.trans (kind_of_single (hsingle ▸ hne) hlength.symm).symm
  · refine ⟨c, ['='], hu, ?_⟩
    rw [List.singleton_append, first_of_withEquals hequals]
    exact ⟨Nat.le_refl _, fun _ => .inl rfl⟩

/-- **The first token is the longest.** -/
theorem yieldsTo_of_mem {rule : Rule} (h : rule ∈ rules) : rule.YieldsTo := by
  simp only [rules, List.mem_append, List.mem_map] at h
  rcases h with ((h | ⟨k, -, rfl⟩) | ⟨spelling, h, rfl⟩) | ⟨m, h, rfl⟩
  · simp only [generalRules, List.mem_cons, List.not_mem_nil, or_false] at h
    rcases h with rfl | rfl | rfl | rfl | rfl | rfl | rfl | rfl | rfl | rfl | rfl
    · exact yieldsTo_blank
    · exact yieldsTo_lineComment
    · exact yieldsTo_blockComment
    · exact yieldsTo_unclosedComment
    · exact yieldsTo_name
    · exact yieldsTo_integer
    · exact yieldsTo_pointed
    · exact yieldsTo_scaled
    · exact yieldsTo_string
    · exact yieldsTo_unclosedString
    · exact yieldsTo_unknownDirective
  · exact yieldsTo_keyword k
  · exact yieldsTo_directive h
  · exact yieldsTo_mark h

end Rule

/-! ### A rule takes the first token -/

/-- The rule takes the token, which starts with `c`, for one of its kind. -/
structure TakenBy (rule : Rule) (token : TokenKind × Nat) (c : Char) (cs : List Char) : Prop where
  mem : rule ∈ rules
  kind : rule.kind = token.1
  takes : rule.Takes (c :: cs.take token.2) (cs.drop token.2)

variable {c : Char} {cs : List Char}

theorem TakenBy.general {rule : Rule} {token : TokenKind × Nat} (hrule : rule ∈ generalRules)
    (hkind : rule.kind = token.1) (h : rule.Takes (c :: cs.take token.2) (cs.drop token.2)) :
    TakenBy rule token c cs := ⟨mem_rules_general hrule, hkind, h⟩

theorem mem_word_countWhile (hc : p c = true) :
    c :: cs.take (countWhile q cs) ∈ oneOf p * (oneOf q)∗ :=
  mem_word.2 ⟨c, _, rfl, hc, of_mem_take_countWhile⟩

theorem exists_takenBy_word (hc : c.isAlpha = true) : ∃ rule, TakenBy rule (word c cs) c cs := by
  unfold word
  dsimp only
  split
  · rename_i k hk
    refine ⟨.keyword k, mem_rules_keyword k, rfl, ?_⟩
    have hword := List.find?_some hk
    change _ = k.word.toList
    rw [eq_of_beq hword, String.toList_ofList]
  · exact ⟨.name, .general (by simp [generalRules]) rfl (mem_word_countWhile hc)⟩

theorem exists_takenBy_number (hc : c.isDigit = true) : ∃ rule, TakenBy rule (number cs) c cs := by
  have hdigits : c :: cs.take (countWhile Char.isDigit cs) ∈ digits := mem_word_countWhile hc
  simp only [number]
  generalize countWhile Char.isDigit cs = whole at hdigits ⊢
  have hfraction := take_optional_fraction (cs.drop whole)
  generalize hfs : fractionLength (cs.drop whole) = fs at hfraction ⊢
  by_cases hes : exponentLength (cs.drop (whole + fs)) = 0
  · rw [hes, Nat.add_zero, Nat.add_zero]
    by_cases hzero : fs = 0
    · rw [if_pos hzero, hzero, Nat.add_zero]
      exact ⟨.integer, .general (by simp [generalRules]) rfl hdigits⟩
    · rw [if_neg hzero]
      refine ⟨.pointed, .general (by simp [generalRules]) rfl ?_⟩
      dsimp only
      rw [List.take_add, ← List.cons_append]
      exact Language.append_mem_mul (mem_kstar_oneOf.2 (mem_digits.1 hdigits).2)
        (hfs ▸ take_fraction (hfs ▸ hzero))
  · rw [if_neg (by omega)]
    refine ⟨.scaled, .general (by simp [generalRules]) rfl ?_⟩
    dsimp only
    rw [List.take_add, List.take_add, List.append_assoc, ← List.cons_append]
    exact Language.append_mem_mul hdigits (Language.append_mem_mul hfraction (take_exponent hes))

theorem exists_takenBy_string : ∃ rule, TakenBy rule (string cs) '\x22' cs := by
  have hopen : '\x22' :: cs.take (countWhile isQuotable cs) ∈ openString := mem_word_countWhile rfl
  change ∃ rule, TakenBy rule (if (cs.drop (countWhile isQuotable cs)).head? = some '\x22' then
    (.string, countWhile isQuotable cs + 1) else (.invalid, countWhile isQuotable cs)) _ _
  split
  · rename_i hhead
    refine ⟨.string, .general (by simp [generalRules]) rfl ?_⟩
    obtain ⟨rest, hrest⟩ := List.head?_eq_some_iff.1 hhead
    dsimp only
    rw [List.take_add, hrest, ← List.cons_append]
    exact Language.append_mem_mul hopen ⟨'\x22', rfl, rfl⟩
  · exact ⟨.unclosedString, .general (by simp [generalRules]) rfl hopen⟩

theorem exists_takenBy_directive (h : (directive cs).1 ≠ .invalid) :
    ∃ rule, TakenBy rule (directive cs) '#' cs := by
  have hstart : ∃ c ds, cs = c :: ds ∧ startsDirective c = true := by
    unfold directive at h
    split at h
    · rename_i c ds
      split at h
      · exact ⟨c, ds, rfl, ‹_›⟩
      · exact absurd rfl h
    · exact absurd rfl h
  obtain ⟨c, ds, rfl, hc⟩ := hstart
  have htake : (c :: ds).take (countWhile isWordChar (c :: ds)) =
      c :: ds.take (countWhile isWordChar ds) := by
    rw [countWhile_cons, if_pos (isWordChar_of_startsDirective hc), List.take_succ_cons]
  change ∃ rule, TakenBy rule (if startsDirective c = true then
    (.directive (.ofWord (String.ofList ('#' :: (c :: ds).take (countWhile isWordChar (c :: ds))))),
      countWhile isWordChar (c :: ds)) else (.invalid, 0)) _ _
  rw [if_pos hc]
  rcases ofWord_cases (String.ofList ('#' :: (c :: ds).take (countWhile isWordChar (c :: ds))))
    with ⟨spelling, hmem, hword, hkind⟩ | hunknown
  · refine ⟨.directive spelling, mem_rules_directive hmem, by rw [hkind]; rfl, ?_⟩
    change _ = spelling.1.toList
    rw [hword, String.toList_ofList]
  · rw [hunknown]
    refine ⟨.unknownDirective, .general (by simp [generalRules]) rfl ?_⟩
    dsimp only
    rw [htake]
    exact mem_oneOf_mul.2 ⟨'#', _, rfl, rfl, mem_word_countWhile hc⟩

theorem exists_takenBy_comment (cs : List Char) :
    ∃ rule, TakenBy rule (first '/' ('*' :: cs)) '/' ('*' :: cs) := by
  rw [first_of_comment]
  cases hlength : commentLength? cs with
  | none =>
    refine ⟨.unclosedComment, .general (by simp [generalRules]) rfl ?_⟩
    refine ⟨cs, ?_, commentLength?_eq_none_iff.1 hlength, ?_⟩
    · simp
    · simp
  | some n =>
    obtain ⟨body, rest, rfl, rfl, hbody⟩ := commentLength?_eq_some_iff.1 hlength
    refine ⟨.blockComment, .general (by simp [generalRules]) rfl ?_⟩
    refine ⟨body, ?_, hbody⟩
    have htake : (body ++ '*' :: '/' :: rest).take (body.length + 2) = body ++ ['*', '/'] := by
      rw [List.take_append]
      simp
    dsimp only
    rw [List.take_succ_cons, htake]

theorem mem_marks_of_withEquals {kind : TokenKind} (h : withEquals c = some kind) :
    ∃ m ∈ marks, m.1.toList = [c, '='] ∧ m.2 = kind := by
  unfold withEquals at h
  split at h <;> cases h <;> simp [marks]

theorem mem_marks_of_single (h : single c ≠ .invalid) :
    ∃ m ∈ marks, m.1.toList = [c] ∧ m.2 = single c := by
  unfold single at h ⊢
  split at h <;> first | exact absurd rfl h | simp [marks]

theorem mem_rules_mark {m : String × TokenKind} (h : m ∈ marks) : Rule.spelled m.1 m.2 ∈ rules := by
  simp only [rules, List.mem_append, List.mem_map]
  exact .inr ⟨m, h, rfl⟩

theorem exists_takenBy_punctuation (h : (punctuation c cs).1 ≠ .invalid) :
    ∃ rule, TakenBy rule (punctuation c cs) c cs := by
  have hsingle : single c ≠ .invalid → ∃ rule, TakenBy rule (single c, 0) c cs := by
    intro hc
    obtain ⟨m, hm, hword, hkind⟩ := mem_marks_of_single hc
    exact ⟨.spelled m.1 m.2, mem_rules_mark hm, hkind, hword.symm⟩
  unfold punctuation at h ⊢
  split at h
  · rename_i kind hequals
    split at h
    · rename_i hhead
      obtain ⟨cs, rfl⟩ := List.head?_eq_some_iff.1 hhead
      obtain ⟨m, hm, hword, hkind⟩ := mem_marks_of_withEquals hequals
      rw [if_pos hhead]
      exact ⟨.spelled m.1 m.2, mem_rules_mark hm, hkind, hword.symm⟩
    · rename_i hhead
      rw [if_neg hhead]
      exact hsingle h
  · exact hsingle h

theorem eq_invalid_of_directive (h : (directive cs).1 = .invalid) : directive cs = (.invalid, 0) := by
  unfold directive at h ⊢
  split at h
  · split at h
    · cases h
    · rename_i hc
      rw [if_neg hc]
  · rfl

theorem ne_invalid_of_mem_marks : ∀ m ∈ marks, m.2 ≠ .invalid := by decide

theorem eq_invalid_of_punctuation (h : (punctuation c cs).1 = .invalid) :
    punctuation c cs = (.invalid, 0) := by
  unfold punctuation at h ⊢
  split at h
  · rename_i hequals
    split at h
    · obtain ⟨m, hm, -, hkind⟩ := mem_marks_of_withEquals hequals
      exact absurd (hkind.trans h) (ne_invalid_of_mem_marks m hm)
    · rename_i hhead
      rw [if_neg hhead]
      exact Prod.ext h rfl
  · exact Prod.ext h rfl

/-- A rule takes the first token, unless it is a character by itself that is invalid. -/
theorem exists_takenBy_first (c : Char) (cs : List Char) :
    (∃ rule, TakenBy rule (first c cs) c cs) ∨ first c cs = (.invalid, 0) ∧ c ≠ '\x22' := by
  unfold first
  split
  · rename_i hc
    exact .inl ⟨.blank, .general (by simp [generalRules]) rfl (mem_word_countWhile hc)⟩
  split
  · rename_i hc
    exact .inl ⟨.lineComment, .general (by simp [generalRules]) rfl (mem_word_countWhile hc)⟩
  split
  · rename_i hc
    exact .inl (exists_takenBy_word hc)
  split
  · rename_i hc
    exact .inl (exists_takenBy_number hc)
  split
  · rename_i hc
    rw [Bool.and_eq_true, bne_iff_ne] at hc
    obtain ⟨hpoint, hfraction⟩ := hc
    rw [eq_of_beq hpoint] at hfraction ⊢
    have hdigits : countWhile Char.isDigit cs ≠ 0 := by
      intro hzero
      rw [fractionLength_point, if_pos hzero] at hfraction
      exact hfraction rfl
    refine .inl ⟨.pointed, .general (by simp [generalRules]) rfl ?_⟩
    exact Language.append_mem_mul (a := []) (mem_kstar_oneOf.2 (List.forall_mem_nil _))
      (mem_fraction.2 ⟨_, rfl, take_digits hdigits⟩)
  split
  · rename_i hc
    rw [eq_of_beq hc]
    exact .inl exists_takenBy_string
  split
  · rename_i hc
    rw [eq_of_beq hc]
    by_cases hinvalid : (directive cs).1 = .invalid
    · exact .inr ⟨eq_invalid_of_directive hinvalid, by decide⟩
    · exact .inl (exists_takenBy_directive hinvalid)
  split
  · rename_i hc
    rw [Bool.and_eq_true, decide_eq_true_eq] at hc
    obtain ⟨cs, rfl⟩ := List.head?_eq_some_iff.1 hc.2
    rw [eq_of_beq hc.1]
    exact .inl (exists_takenBy_comment cs)
  · rename_i hquote _ _
    by_cases hinvalid : (punctuation c cs).1 = .invalid
    · exact .inr ⟨eq_invalid_of_punctuation hinvalid, fun h => hquote (by rw [h]; rfl)⟩
    · exact .inl (exists_takenBy_punctuation hinvalid)

/-! ### The choice -/

/-- A rule that takes invalid tokens takes strings that are not closed. -/
theorem eq_unclosedString {rule : Rule} (h : rule ∈ rules) (hkind : rule.kind = .invalid) :
    rule = .unclosedString := by
  simp only [rules, List.mem_append, List.mem_map] at h
  rcases h with ((h | ⟨k, -, rfl⟩) | ⟨spelling, -, rfl⟩) | ⟨m, h, rfl⟩
  · simp only [generalRules, List.mem_cons, List.not_mem_nil, or_false] at h
    rcases h with rfl | rfl | rfl | rfl | rfl | rfl | rfl | rfl | rfl | rfl | rfl <;>
      first | rfl | cases hkind
  · cases hkind
  · cases hkind
  · exact absurd hkind (ne_invalid_of_mem_marks m h)

/-- Nothing that is spelled out starts with a quote. -/
theorem head_of_exact {rule : Rule} (h : rule ∈ rules) (hexact : rule.exact = true) {u v : List Char}
    (htakes : rule.Takes u v) : u.head? ≠ some '\x22' := by
  have hdirective : ∀ spelling ∈ DirectiveWord.spellings,
      spelling.1.toList.head? ≠ some '\x22' := by decide
  have hmark : ∀ m ∈ marks, m.1.toList.head? ≠ some '\x22' := by decide
  simp only [rules, List.mem_append, List.mem_map] at h
  rcases h with ((h | ⟨k, -, rfl⟩) | ⟨spelling, h, rfl⟩) | ⟨m, h, rfl⟩
  · simp only [generalRules, List.mem_cons, List.not_mem_nil, or_false] at h
    rcases h with rfl | rfl | rfl | rfl | rfl | rfl | rfl | rfl | rfl | rfl | rfl <;> cases hexact
  · obtain rfl := htakes
    cases k <;> decide
  · obtain rfl := htakes
    exact hdirective spelling h
  · obtain rfl := htakes
    exact hmark m h

/-- What a rule that takes the text of the first token says about its kind. -/
theorem kind_of_takes {rule : Rule} (h : rule ∈ rules)
    (htakes : rule.Takes (c :: cs.take (first c cs).2) (cs.drop (first c cs).2)) :
    rule.kind = (first c cs).1 ∨ rule.exact = false ∧ ∃ winner ∈ rules, winner.exact = true ∧
      winner.kind = (first c cs).1 ∧
        winner.Takes (c :: cs.take (first c cs).2) (cs.drop (first c cs).2) := by
  obtain ⟨d, w, heq, -, hyields⟩ := Rule.yieldsTo_of_mem h _ _ htakes
  obtain ⟨rfl, rfl⟩ := List.cons.inj heq
  rw [List.take_append_drop] at hyields
  exact hyields (by rw [List.length_take, Nat.min_eq_left (first_le c cs)])

/-- If an invalid character is the first token, no rule takes anything. -/
theorem noneTakes_of_first (h : first c cs = (.invalid, 0)) (hc : c ≠ '\x22') :
    NoneTakes (c :: cs) := by
  intro rule hrule u v heq htakes
  obtain ⟨d, w, rfl, hle, hkind⟩ := Rule.yieldsTo_of_mem hrule u v htakes
  rw [List.cons_append] at heq
  obtain ⟨rfl, rfl⟩ := List.cons.inj heq
  rw [h] at hle hkind
  obtain rfl := List.length_eq_zero_iff.1 (Nat.le_zero.1 hle)
  have hstring : rule ≠ .unclosedString := by
    rintro rfl
    obtain ⟨_, _, hword, hquote, -⟩ := mem_word.1 htakes
    obtain ⟨rfl, -⟩ := List.cons.inj hword
    exact hc (eq_of_beq hquote)
  rcases hkind rfl with hinvalid | ⟨-, winner, hwinner, hexact, hinvalid, -⟩
  · exact hstring (eq_unclosedString hrule hinvalid)
  · rw [eq_unclosedString hwinner hinvalid] at hexact
    cases hexact

/-- **The first token is what the rules choose.** -/
theorem stands_first (c : Char) (cs : List Char) :
    Stands (first c cs).1 (c :: cs.take (first c cs).2) (cs.drop (first c cs).2) := by
  have htext : c :: cs.take (first c cs).2 ++ cs.drop (first c cs).2 = c :: cs := by
    rw [List.cons_append, List.take_append_drop]
  have hlength : (c :: cs.take (first c cs).2).length = (first c cs).2 + 1 := by
    rw [List.length_cons, List.length_take, Nat.min_eq_left (first_le c cs)]
  refine ⟨?longest, ?chosen, ?invalid⟩
  case longest =>
    intro rule hrule u v heq htakes
    obtain ⟨d, w, rfl, hle, -⟩ := Rule.yieldsTo_of_mem hrule u v htakes
    obtain ⟨rfl, rfl⟩ := List.cons.inj (htext.symm.trans heq)
    rw [hlength]
    exact Nat.succ_le_succ hle
  case chosen =>
    rcases exists_takenBy_first c cs with ⟨rule, hmem, hkind, htakes⟩ | ⟨hfirst, hc⟩
    · left
      by_cases hexact : ∃ winner ∈ rules, winner.exact = true ∧ winner.kind = (first c cs).1 ∧
          winner.Takes (c :: cs.take (first c cs).2) (cs.drop (first c cs).2)
      · obtain ⟨winner, hwinner, hexact, hkind, htakes⟩ := hexact
        refine ⟨winner, ⟨hwinner, htakes, fun other hother h => ?_⟩, hkind⟩
        rcases kind_of_takes hother h with heq | ⟨hgeneral, -⟩
        · exact .inl (heq.trans hkind.symm)
        · exact .inr ⟨hexact, hgeneral⟩
      · refine ⟨rule, ⟨hmem, htakes, fun other hother h => .inl ?_⟩, hkind⟩
        rcases kind_of_takes hother h with heq | ⟨-, hwinner⟩
        · exact heq.trans hkind.symm
        · exact absurd hwinner hexact
    · right
      rw [htext, hlength, hfirst]
      exact ⟨rfl, rfl, noneTakes_of_first hfirst hc⟩
  case invalid =>
    rw [htext, hlength]
    constructor
    · intro hinvalid
      rcases exists_takenBy_first c cs with ⟨rule, hmem, hkind, htakes⟩ | ⟨hfirst, hc⟩
      · rw [eq_unclosedString hmem (hkind.trans hinvalid)] at htakes
        exact .inl htakes
      · exact .inr ⟨by rw [hfirst], noneTakes_of_first hfirst hc⟩
    · rintro (htakes | ⟨-, hnone⟩)
      · have hmem : Rule.unclosedString ∈ rules := mem_rules_general (by simp [generalRules])
        rcases kind_of_takes hmem htakes with hkind | ⟨-, winner, hwinner, hexact, hkind, hword⟩
        · exact hkind.symm
        · obtain ⟨_, _, heq, hquote, -⟩ := mem_word.1 htakes
          refine absurd ?_ (head_of_exact hwinner hexact hword)
          rw [heq, List.head?_cons, eq_of_beq hquote]
      · rcases exists_takenBy_first c cs with ⟨rule, hmem, -, htakes⟩ | ⟨hfirst, -⟩
        · exact absurd htakes (hnone rule hmem _ _ htext.symm)
        · rw [hfirst]

end Lexer

/-! ### All tokens -/

/-- Where a text can be cut there is a text of that length before the cut. -/
theorem exists_of_dropBytes {cs rest : List Char} {offset : Nat}
    (h : dropBytes offset cs = some rest) :
    ∃ before, cs = before ++ rest ∧ byteLength before = offset := by
  fun_induction dropBytes offset cs with
  | case1 cs =>
    cases h
    exact ⟨[], rfl, rfl⟩
  | case2 => cases h
  | case3 n c cs hle ih =>
    obtain ⟨before, rfl, hbefore⟩ := ih h
    refine ⟨c :: before, rfl, ?_⟩
    rw [byteLength_cons, hbefore]
    omega
  | case4 => cases h

/-- **Every token is what the rules choose where it starts.** -/
theorem Token.longest_match (text : String) (offset : Nat) :
    ∀ t ∈ ofTextAt text offset, ∃ before rest,
      text.toList = before ++ t.text.toList ++ rest ∧ byteLength before = t.range.start ∧
        Lexer.Stands t.kind t.text.toList rest := by
  intro t ht
  unfold ofTextAt at ht
  split at ht
  · rename_i cs hdrop
    obtain ⟨before, htext, hoffset⟩ := exists_of_dropBytes hdrop
    obtain ⟨as, bs, hsplit⟩ := List.append_of_mem ht
    obtain ⟨pre, post, rfl, hend, hrest⟩ := Lexer.scan_resume hsplit
    cases post with
    | nil =>
      rw [Lexer.scan_nil] at hrest
      cases hrest
    | cons c cs =>
      rw [Lexer.scan_cons] at hrest
      obtain ⟨rfl, -⟩ := List.cons.inj hrest
      refine ⟨before ++ pre, cs.drop (Lexer.first c cs).2, ?_, ?_, ?_⟩
      · rw [htext, String.toList_ofList]
        simp
      · rw [byteLength_append, hoffset, hend]
      · rw [String.toList_ofList]
        exact Lexer.stands_first c cs
  · cases ht

/-- An exponent needs a digit, so the letter is a name of its own. -/
theorem Token.longest_match_exponent :
    let letter : Token := ⟨.ident, "e", ⟨1, 2⟩, false⟩
    letter ∈ ofTextAt "1e-x" 0 ∧ ∃ before rest,
      "1e-x".toList = before ++ "e".toList ++ rest ∧ byteLength before = 1 ∧
        Lexer.Stands .ident "e".toList rest := by
  intro letter
  have hmem : letter ∈ ofTextAt "1e-x" 0 := by decide +kernel
  exact ⟨hmem, longest_match "1e-x" 0 letter hmem⟩

end ControlFile
