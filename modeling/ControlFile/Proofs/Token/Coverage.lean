import ControlFile.Proofs.Token.Movement

/-!
# Cutting a text loses nothing

The tokens of a text stand side by side from its first byte to its last, none of them is empty, and
each is the stretch of the text that it says it is (`Token.Covers`).  What is still to be cut depends
on nothing but where the last token ended and whether it was blank (`Lexer.scan_resume`), so cutting
can start again behind any token (`Token.ofTextAt_endFrom`).

`TokenStream.ofText` then has every token in the lists that its kind says, once in each, and blanks
in none (`TokenStream.entries_ofText`).
-/

namespace ControlFile

/-! ### The first token -/

namespace Token

/-- Whether there is space behind the tokens `ts`: `start` says so if there are none. -/
def spacedBehind (start : Bool) (ts : List Token) : Bool :=
  (ts.getLast?.map (·.kind.isTrivia)).getD start

@[simp] theorem spacedBehind_nil (start : Bool) : spacedBehind start [] = start := rfl

@[simp] theorem spacedBehind_cons (start : Bool) (t : Token) (ts : List Token) :
    spacedBehind start (t :: ts) = spacedBehind t.kind.isTrivia ts := by
  cases ts with
  | nil => rfl
  | cons u us => simp [spacedBehind, List.getLast?_cons]

/-- Before the first token, and behind blanks and comments. -/
theorem spacedBehind_true_iff {ts : List Token} :
    spacedBehind true ts = true ↔ ts = [] ∨ ∃ t, ts.getLast? = some t ∧ t.kind.isTrivia = true := by
  unfold spacedBehind
  rcases List.eq_nil_or_concat ts with rfl | ⟨us, u, rfl⟩ <;> simp

/-- The same tokens, with the start of the text or space before the first. -/
def afresh : List Token → List Token
  | [] => []
  | t :: ts => { t with spaced := true } :: ts

end Token

namespace Lexer

/-- Cutting starts at the given offset, and says of the first token what it is told. -/
theorem scan_eq_cons {offset : Nat} {spaced : Bool} {cs : List Char} {t : Token} {ts : List Token}
    (h : scan offset spaced cs = t :: ts) :
    ∃ post, cs = t.text.toList ++ post ∧ t.text.toList ≠ [] ∧
      t.range = ⟨offset, offset + byteLength t.text.toList⟩ ∧ t.spaced = spaced ∧
      ts = scan t.range.stop t.kind.isTrivia post := by
  cases cs with
  | nil => simp at h
  | cons c cs =>
    rw [scan_cons] at h
    obtain ⟨rfl, rfl⟩ := List.cons.inj h
    exact ⟨cs.drop (first c cs).2, by simp, by simp, by simp, rfl, rfl⟩

/-- **Cutting can be resumed.**  Behind any of its tokens the rest of the text is cut as if the
text began there, but for what is known of the space before it. -/
theorem scan_resume {as : List Token} : ∀ {offset : Nat} {spaced : Bool} {cs : List Char}
    {bs : List Token}, scan offset spaced cs = as ++ bs →
    ∃ pre post, cs = pre ++ post ∧ Token.endFrom offset as = offset + byteLength pre ∧
      bs = scan (Token.endFrom offset as) (Token.spacedBehind spaced as) post := by
  induction as with
  | nil => exact fun {_ _ cs _} h => ⟨[], cs, rfl, rfl, h.symm⟩
  | cons t as ih =>
    intro offset spaced cs bs h
    obtain ⟨post, rfl, -, hrange, -, hrest⟩ := scan_eq_cons h
    obtain ⟨pre, post, rfl, hend, rfl⟩ := ih hrest.symm
    refine ⟨t.text.toList ++ pre, post, (List.append_assoc ..).symm, ?_, by
      rw [Token.spacedBehind_cons]; rfl⟩
    rw [Token.endFrom, hend, hrange, byteLength_append, Nat.add_assoc]

/-- Cutting ends at the end of the text. -/
theorem endFrom_scan (offset : Nat) (spaced : Bool) (cs : List Char) :
    Token.endFrom offset (scan offset spaced cs) = offset + byteLength cs := by
  obtain ⟨pre, post, rfl, hend, hnil⟩ := scan_resume (List.append_nil (scan offset spaced cs)).symm
  cases post with
  | nil => rw [hend, List.append_nil]
  | cons c cs => rw [scan_cons] at hnil; cases hnil

/-- With space before it, the first token is said to be spaced, and nothing else changes. -/
theorem scan_true (offset : Nat) (spaced : Bool) (cs : List Char) :
    scan offset true cs = Token.afresh (scan offset spaced cs) := by
  cases cs with
  | nil => simp [Token.afresh]
  | cons c cs => rw [scan_cons, scan_cons]; rfl

end Lexer

/-! ### All tokens -/

/-- The tokens `ts` cover the text behind its first characters `before`. -/
structure Token.Covers (text : String) (before : List Char) (ts : List Token) : Prop where
  /-- No token is empty. -/
  nonempty : ∀ t ∈ ts, t.range.start < t.range.stop
  /-- A token is what stands at its range. -/
  slice : ∀ t ∈ ts, ∃ left right, text.toList = left ++ t.text.toList ++ right ∧
    byteLength left = t.range.start ∧ byteLength (left ++ t.text.toList) = t.range.stop
  /-- Each token starts where the one before it ends, and the first one behind `before`. -/
  adjacent : ∀ as t bs, ts = as ++ t :: bs →
    t.range.start = Token.endFrom (byteLength before) as
  /-- The last token ends with the text. -/
  toEnd : Token.endFrom (byteLength before) ts = byteLength text.toList
  /-- There is space before the first token, and behind blanks and comments only. -/
  spaced : ∀ as t bs, ts = as ++ t :: bs →
    (t.spaced = true ↔ as = [] ∨ ∃ u, as.getLast? = some u ∧ u.kind.isTrivia = true)

namespace Token

theorem ofTextAt_byteLength {text : String} {before rest : List Char}
    (h : text.toList = before ++ rest) :
    ofTextAt text (byteLength before) = Lexer.scan (byteLength before) true rest := by
  rw [ofTextAt, h, dropBytes_byteLength_append]

/-- Where a token of the text stands, and what is cut behind it. -/
theorem ofTextAt_split {text : String} {before rest : List Char} (h : text.toList = before ++ rest)
    {as bs : List Token} {t : Token} (hts : ofTextAt text (byteLength before) = as ++ t :: bs) :
    ∃ pre post, text.toList = (before ++ pre) ++ t.text.toList ++ post ∧ t.text.toList ≠ [] ∧
      byteLength (before ++ pre) = endFrom (byteLength before) as ∧
      t.range = ⟨byteLength (before ++ pre), byteLength ((before ++ pre) ++ t.text.toList)⟩ ∧
      t.spaced = spacedBehind true as := by
  rw [ofTextAt_byteLength h] at hts
  obtain ⟨pre, rest', rfl, hend, hcut⟩ := Lexer.scan_resume hts
  obtain ⟨post, rfl, hne, hrange, hspaced, -⟩ := Lexer.scan_eq_cons hcut.symm
  rw [← byteLength_append] at hend
  refine ⟨pre, post, by rw [h]; simp, hne, hend.symm, ?_, hspaced⟩
  rw [hrange, hend, ← byteLength_append]

/-- **Nothing is lost**, wherever in the text cutting starts. -/
theorem covers_ofTextAt {text : String} {before rest : List Char}
    (h : text.toList = before ++ rest) :
    Covers text before (ofTextAt text (byteLength before)) where
  nonempty := by
    intro t ht
    obtain ⟨as, bs, hts⟩ := List.append_of_mem ht
    obtain ⟨pre, post, -, hne, -, hrange, -⟩ := ofTextAt_split h hts
    have hlength := length_le_byteLength t.text.toList
    have hpos := List.length_pos_iff.2 hne
    rw [hrange, byteLength_append _ t.text.toList]
    exact Nat.lt_add_of_pos_right (Nat.lt_of_lt_of_le hpos hlength)
  slice := by
    intro t ht
    obtain ⟨as, bs, hts⟩ := List.append_of_mem ht
    obtain ⟨pre, post, htext, -, -, hrange, -⟩ := ofTextAt_split h hts
    exact ⟨before ++ pre, post, htext, by rw [hrange], by rw [hrange]⟩
  adjacent := by
    intro as t bs hts
    obtain ⟨pre, post, -, -, hend, hrange, -⟩ := ofTextAt_split h hts
    rw [hrange, hend]
  toEnd := by rw [ofTextAt_byteLength h, Lexer.endFrom_scan, h, byteLength_append]
  spaced := by
    intro as t bs hts
    obtain ⟨pre, post, -, -, -, -, hspaced⟩ := ofTextAt_split h hts
    rw [hspaced, spacedBehind_true_iff]

/-- The tokens of a text are those from its first byte on. -/
theorem ofTextAt_zero (text : String) : ofTextAt text 0 = ofText text :=
  @ofTextAt_byteLength text [] text.toList rfl

/-- **Cutting can start again** behind any token. -/
theorem ofTextAt_endFrom {text : String} {as bs : List Token} (h : ofText text = as ++ bs) :
    ofTextAt text (endFrom 0 as) = afresh bs := by
  obtain ⟨pre, post, htext, hend, rfl⟩ := Lexer.scan_resume h
  rw [Nat.zero_add] at hend
  rw [hend, ofTextAt_byteLength htext, ← Lexer.scan_true]

/-- Tokens in their order start behind where the row starts. -/
theorem InOrder.le_start {length start : Nat} {ts : List Token} (h : InOrder length start ts) :
    ∀ t ∈ ts, start ≤ t.range.start := by
  intro t ht
  obtain ⟨as, bs, rfl⟩ := List.append_of_mem ht
  have hle := h.le_endFrom
  cases h.drop with
  | cons hstart => exact Nat.le_trans hle hstart

/-- Tokens in their order that are not empty stand at different places. -/
theorem InOrder.nodup_range {length start : Nat} {ts : List Token} (h : InOrder length start ts)
    (hne : ∀ t ∈ ts, t.range.start < t.range.stop) : (ts.map (·.range)).Nodup := by
  induction h with
  | nil => exact List.nodup_nil
  | @cons start t ts _ _ hrest ih =>
    obtain ⟨ht, hne⟩ := List.forall_mem_cons.1 hne
    refine List.nodup_cons.2 ⟨fun hmem => ?_, ih hne⟩
    obtain ⟨u, hu, heq⟩ := List.mem_map.1 hmem
    have hbehind := hrest.le_start u hu
    rw [show u.range = t.range from heq] at hbehind
    exact absurd ht (Nat.not_lt.2 hbehind)

/-- No two tokens of a text stand at the same place. -/
theorem nodup_range_ofText (text : String) : ((ofText text).map (·.range)).Nodup := by
  refine (inOrder_ofText text).nodup_range ?_
  rw [← ofTextAt_zero]
  exact (@covers_ofTextAt text [] text.toList rfl).nonempty

/-! ### What is made of a token -/

theorem range_of_comment? {t : Token} {c : Comment} (h : t.comment? = some c) :
    c.range = t.range := by
  unfold comment? at h
  split at h <;> cases h <;> rfl

theorem range_of_diagnostic? {t : Token} {d : Diagnostic} (h : t.diagnostic? = some d) :
    d.range = t.range := by
  obtain ⟨fault, -, rfl⟩ := Option.map_eq_some_iff.1 h
  rfl

end Token

/-! ### Sorted tokens -/

/-- How often the stretch `r` stands among the tokens, the comments and the diagnostics. -/
def TokenStream.entries (s : TokenStream) (r : Extent) : Nat × Nat × Nat :=
  (s.tokens.countP (·.range = r), s.comments.countP (·.range = r),
    s.diagnostics.countP (·.range = r))

/-- How often a token of the kind is to be found among the tokens, the comments and the
diagnostics. -/
def TokenKind.entries : TokenKind → Nat × Nat × Nat
  | .blank => (0, 0, 0)
  | .comment _ => (0, 1, 0)
  | .unclosedComment => (0, 1, 1)
  | .invalid => (0, 0, 1)
  | _ => (1, 0, 0)

namespace TokenStream

/-- Where places are all different, what is made of a token is found at its place only. -/
theorem countP_filterMap {α : Type} {make : Token → Option α} {place : α → Extent}
    (hmake : ∀ {t a}, make t = some a → place a = t.range) {t : Token} :
    ∀ {ts : List Token}, (ts.map (·.range)).Nodup → t ∈ ts →
    (ts.filterMap make).countP (place · = t.range) = (make t).isSome.toNat := by
  intro ts hnodup ht
  obtain ⟨as, bs, rfl⟩ := List.append_of_mem ht
  have hother : ∀ us : List Token, (∀ u ∈ us, u.range ≠ t.range) →
      (us.filterMap make).countP (place · = t.range) = 0 := by
    intro us hus
    rw [List.countP_eq_zero]
    intro a ha hplace
    obtain ⟨u, hu, hmade⟩ := List.mem_filterMap.1 ha
    exact hus u hu (by rw [← hmake hmade]; simpa using hplace)
  have has : ∀ u ∈ as, u.range ≠ t.range := by
    intro u hu heq
    rw [List.map_append, List.nodup_append] at hnodup
    exact hnodup.2.2 _ (List.mem_map_of_mem hu) _ (by simp) heq
  have hbs : ∀ u ∈ bs, u.range ≠ t.range := by
    intro u hu heq
    rw [List.map_append, List.map_cons, List.nodup_append, List.nodup_cons] at hnodup
    exact hnodup.2.1.1 (heq ▸ List.mem_map_of_mem hu)
  rw [List.filterMap_append, List.countP_append, hother as has, List.filterMap_cons]
  cases hmade : make t with
  | none => simp [hother bs hbs]
  | some a => simp [hother bs hbs, hmake hmade]

/-- **Every token is sorted.**  It is in the lists that its kind says, once in each. -/
theorem entries_ofText {text : String} {t : Token} (ht : t ∈ Token.ofText text) :
    (ofText text).entries t.range = t.kind.entries := by
  have hnodup := Token.nodup_range_ofText text
  have htokens : (ofText text).tokens =
      (Token.ofText text).filterMap (Option.guard Token.isSignificant) := by
    rw [List.filterMap_eq_filter]
    rfl
  have hplace : ∀ {t u : Token}, Option.guard Token.isSignificant t = some u →
      u.range = t.range := by
    intro t u h
    rw [(Option.guard_eq_some_iff.1 h).1]
  unfold entries
  rw [htokens, countP_filterMap hplace hnodup ht,
    show (ofText text).comments = (Token.ofText text).filterMap Token.comment? from rfl,
    countP_filterMap Token.range_of_comment? hnodup ht,
    show (ofText text).diagnostics = (Token.ofText text).filterMap Token.diagnostic? from rfl,
    countP_filterMap Token.range_of_diagnostic? hnodup ht]
  obtain ⟨kind, word, range, spaced⟩ := t
  cases kind <;> rfl

/-- The lists are made of tokens of the text, and say of them what is written there. -/
structure MadeFrom (s : TokenStream) (ts : List Token) : Prop where
  tokens : ∀ t ∈ s.tokens, t ∈ ts
  comments : ∀ c ∈ s.comments, ∃ t ∈ ts, c.range = t.range ∧ c.text = t.text
  diagnostics : ∀ d ∈ s.diagnostics, ∃ t ∈ ts, d.range = t.range

theorem madeFrom_ofText (text : String) : (ofText text).MadeFrom (Token.ofText text) where
  tokens := fun _ ht => (List.mem_filter.1 ht).1
  comments := by
    intro c hc
    obtain ⟨t, ht, hmade⟩ := List.mem_filterMap.1 hc
    refine ⟨t, ht, Token.range_of_comment? hmade, ?_⟩
    unfold Token.comment? at hmade
    split at hmade <;> cases hmade <;> rfl
  diagnostics := by
    intro d hd
    obtain ⟨t, ht, hmade⟩ := List.mem_filterMap.1 hd
    exact ⟨t, ht, Token.range_of_diagnostic? hmade⟩

end TokenStream

/-- **Cutting a text is lossless.**  From every character on the tokens cover the text, cutting can
start again behind each of them, and every token that is not blank is put into the list of its
kind. -/
theorem Token.lossless (text : String) :
    (∀ before rest, text.toList = before ++ rest →
      Covers text before (ofTextAt text (byteLength before))) ∧
    (∀ as bs, ofText text = as ++ bs → ofTextAt text (endFrom 0 as) = afresh bs) ∧
    (∀ t ∈ ofText text, (TokenStream.ofText text).entries t.range = t.kind.entries) ∧
    (TokenStream.ofText text).MadeFrom (ofText text) :=
  ⟨fun _ _ => covers_ofTextAt, fun _ _ => ofTextAt_endFrom,
    fun _ => TokenStream.entries_ofText, TokenStream.madeFrom_ofText text⟩

/-- A string with a character of two bytes, a number that touches it and a comment that is not
closed. -/
theorem Token.lossless_string :
    let text := "\"é\"1/*"
    let number : Token := ⟨.integer, "1", ⟨4, 5⟩, false⟩
    let comment : Token := ⟨.unclosedComment, "/*", ⟨5, 7⟩, false⟩
    (text.toList = "\"é\"".toList ++ "1/*".toList ∧
      Covers text "\"é\"".toList (ofTextAt text (byteLength "\"é\"".toList))) ∧
    ofTextAt text 4 = afresh [number, comment] ∧
    (TokenStream.ofText text).entries comment.range = (0, 1, 1) := by
  intro text number comment
  have htext : text.toList = "\"é\"".toList ++ "1/*".toList := by decide +kernel
  have htokens : ofText text = [⟨.string, "\"é\"", ⟨0, 4⟩, true⟩] ++ [number, comment] := by
    decide +kernel
  obtain ⟨hcovers, hresume, hentries, -⟩ := lossless text
  exact ⟨⟨htext, hcovers _ _ htext⟩, hresume _ _ htokens,
    hentries comment (by rw [htokens]; simp)⟩

end ControlFile
