import ControlFile.Token.Cursor

/-!
# How a cursor moves

A cursor only moves forward.  `Cursor.Moves c ts c'` says that it gets from `c` to `c'` over the
tokens `ts`, and `Cursor.InText` that the tokens ahead stand one behind the other inside the text.

Main facts: the tokens of every text do (`inText_start`), a cursor stays in its text
(`Moves.inText`), and the stretch from the current token to the end of the last token consumed is a
stretch of the text (`Moves.inside`).
-/

namespace ControlFile

/-! ### Stretches of a text -/

/-- The stretch lies in a text of `length` bytes. -/
def Extent.Inside (length : Nat) (r : Extent) : Prop := r.start ≤ r.stop ∧ r.stop ≤ length

theorem Extent.inside_emptyAt {length offset : Nat} (h : offset ≤ length) :
    (emptyAt offset).Inside length := ⟨Nat.le_refl _, h⟩

/-- A stretch of the text is shown where it is. -/
theorem Extent.Inside.clamp {length : Nat} {r : Extent} (h : r.Inside length) :
    r.clamp length = r := clamp_of_le (Nat.le_trans h.1 h.2) h.2

/-! ### Tokens in a text -/

/-- The tokens stand one behind the other, all of them from `start` on and inside a text of `length`
bytes. -/
inductive Token.InOrder (length : Nat) : (start : Nat) → List Token → Prop
  | nil {start : Nat} : InOrder length start []
  | cons {start : Nat} {t : Token} {ts : List Token} (hstart : start ≤ t.range.start)
      (hinside : t.range.Inside length) (hrest : InOrder length t.range.stop ts) :
      InOrder length start (t :: ts)

namespace Token

/-- Where a row of tokens ends that starts behind `start`. -/
def endFrom : (start : Nat) → List Token → Nat
  | start, [] => start
  | _, t :: ts => endFrom t.range.stop ts

theorem endFrom_append (start : Nat) (ts us : List Token) :
    endFrom start (ts ++ us) = endFrom (endFrom start ts) us := by
  induction ts generalizing start with
  | nil => rfl
  | cons t ts ih => exact ih t.range.stop

theorem endFrom_eq_getLast? (start : Nat) (ts : List Token) :
    endFrom start ts = (ts.getLast?.map (·.range.stop)).getD start := by
  induction ts generalizing start with
  | nil => rfl
  | cons t ts ih =>
    rw [endFrom, ih]
    cases ts with
    | nil => rfl
    | cons s ss => simp [List.getLast?_cons]

end Token

namespace Token.InOrder

variable {length start : Nat} {ts us : List Token}

theorem mono {start' : Nat} (h : InOrder length start ts) (hs : start' ≤ start) :
    InOrder length start' ts := by
  cases h with
  | nil => exact .nil
  | cons hstart hinside hrest => exact .cons (Nat.le_trans hs hstart) hinside hrest

/-- Tokens that are left out leave the others in order. -/
theorem filter (p : Token → Bool) (h : InOrder length start ts) :
    InOrder length start (ts.filter p) := by
  induction h with
  | nil => exact .nil
  | @cons start t ts hstart hinside hrest ih =>
    rw [List.filter_cons]
    split
    · exact .cons hstart hinside ih
    · exact ih.mono (Nat.le_trans hstart hinside.1)

theorem inside (h : InOrder length start ts) : ∀ t ∈ ts, t.range.Inside length := by
  induction h with
  | nil => intro t ht; simp at ht
  | cons hstart hinside hrest ih =>
    intro t ht
    rcases List.mem_cons.1 ht with rfl | ht
    · exact hinside
    · exact ih t ht

/-- Behind the tokens `ts`, the others go on from where the last of them ends. -/
theorem drop (h : InOrder length start (ts ++ us)) : InOrder length (endFrom start ts) us := by
  induction ts generalizing start with
  | nil => exact h
  | cons t ts ih =>
    obtain - | ⟨-, -, hrest⟩ := h
    exact ih hrest

theorem le_endFrom (h : InOrder length start (ts ++ us)) : start ≤ endFrom start ts := by
  induction ts generalizing start with
  | nil => exact Nat.le_refl _
  | cons t ts ih =>
    obtain - | ⟨hstart, hinside, hrest⟩ := h
    calc start ≤ t.range.start := hstart
      _ ≤ t.range.stop := hinside.1
      _ ≤ endFrom t.range.stop ts := ih hrest

theorem endFrom_le (h : InOrder length start (ts ++ us)) (hs : start ≤ length) :
    endFrom start ts ≤ length := by
  induction ts generalizing start with
  | nil => exact hs
  | cons t ts ih =>
    obtain - | ⟨-, hinside, hrest⟩ := h
    exact ih hrest hinside.2

end Token.InOrder

/-- The tokens of a text stand in it in order. -/
theorem Lexer.inOrder_scan (offset : Nat) (spaced : Bool) (cs : List Char) :
    Token.InOrder (offset + byteLength cs) offset (scan offset spaced cs) := by
  fun_induction scan offset spaced cs with
  | case1 => exact .nil
  | case2 offset spaced c cs kind n _ text stop ih =>
    have hlength : stop + byteLength (cs.drop n) = offset + byteLength (c :: cs) := by
      have happend := byteLength_append (cs.take n) (cs.drop n)
      rw [List.take_append_drop] at happend
      simp only [stop, text, byteLength_cons]
      omega
    rw [hlength] at ih
    exact .cons (Nat.le_refl _) ⟨Nat.le_add_right .., Nat.le.intro hlength⟩ ih

theorem Token.inOrder_ofText (text : String) :
    Token.InOrder (byteLength text.toList) 0 (Token.ofText text) := by
  have h := Lexer.inOrder_scan 0 true text.toList
  rwa [Nat.zero_add] at h

/-! ### Cursors in a text -/

namespace Cursor

/-- The cursor stands in a text of `length` bytes, with the tokens ahead in their order. -/
structure InText (length : Nat) (c : Cursor) : Prop where
  tokens : Token.InOrder length c.lastEnd c.rest
  lastEnd : c.lastEnd ≤ length
  textEnd : c.textEnd = length

/-- From `c` the cursor gets to `c'` over the tokens `ts`. -/
structure Moves (c : Cursor) (ts : List Token) (c' : Cursor) : Prop where
  rest : c.rest = ts ++ c'.rest
  lastEnd : c'.lastEnd = Token.endFrom c.lastEnd ts
  textEnd : c'.textEnd = c.textEnd

variable {length : Nat} {c c' c'' : Cursor} {ts us : List Token}

/-- Before the first token of a text. -/
theorem inText_start (text : String) :
    InText (byteLength text.toList)
      ⟨(TokenStream.ofText text).tokens, 0, byteLength text.toList⟩ :=
  ⟨(Token.inOrder_ofText text).filter _, Nat.zero_le _, rfl⟩

theorem here_cons {t : Token} (h : c.rest = t :: ts) : c.here = t.range := by
  unfold Cursor.here
  rw [h]

theorem InText.here (h : c.InText length) : c.here.Inside length := by
  cases hrest : c.rest with
  | nil =>
    unfold Cursor.here
    rw [hrest]
    exact h.textEnd ▸ Extent.inside_emptyAt (Nat.le_refl _)
  | cons t ts =>
    rw [here_cons hrest]
    exact h.tokens.inside t (by simp [hrest])

namespace Moves

theorem refl (c : Cursor) : c.Moves [] c := ⟨rfl, rfl, rfl⟩

theorem trans (h : c.Moves ts c') (h' : c'.Moves us c'') : c.Moves (ts ++ us) c'' where
  rest := by rw [h.rest, h'.rest, List.append_assoc]
  lastEnd := by rw [h'.lastEnd, h.lastEnd, Token.endFrom_append]
  textEnd := h'.textEnd.trans h.textEnd

theorem advance {t : Token} {ts : List Token} (h : c.rest = t :: ts) : c.Moves [t] c.advance := by
  unfold Cursor.advance
  rw [h]
  exact ⟨h, rfl, rfl⟩

theorem skipWhile (p : Token → Bool) (c : Cursor) :
    c.Moves (c.rest.takeWhile p) (c.skipWhile p) :=
  ⟨(List.takeWhile_append_dropWhile).symm, (Token.endFrom_eq_getLast? ..).symm, rfl⟩

/-- Also at the end of the text, where it stays, the cursor moves. -/
theorem exists_advance (c : Cursor) : ∃ ts, c.Moves ts c.advance := by
  cases hrest : c.rest with
  | nil => exact ⟨[], by unfold Cursor.advance; rw [hrest]; exact .refl c⟩
  | cons t ts => exact ⟨[t], .advance hrest⟩

theorem inText (h : c.Moves ts c') (hc : c.InText length) : c'.InText length := by
  have htokens : Token.InOrder length c.lastEnd (ts ++ c'.rest) := h.rest ▸ hc.tokens
  exact ⟨h.lastEnd ▸ htokens.drop, h.lastEnd ▸ htokens.endFrom_le hc.lastEnd,
    h.textEnd.trans hc.textEnd⟩

theorem length_rest (h : c.Moves ts c') : c.rest.length = ts.length + c'.rest.length := by
  rw [h.rest, List.length_append]

/-- What is consumed starts with the current token. -/
theorem head?_eq {t : Token} {rest : List Token} (h : c.Moves ts c') (hrest : c.rest = t :: rest)
    (hts : ts ≠ []) : ts.head? = some t := by
  cases ts with
  | nil => exact absurd rfl hts
  | cons s ss =>
    have heq := hrest.symm.trans h.rest
    rw [List.cons_append, List.cons.injEq] at heq
    rw [List.head?_cons, heq.1]

/-- What has been consumed is a stretch of the text. -/
theorem inside (h : c.Moves ts c') (hc : c.InText length) (hts : ts ≠ []) :
    Extent.Inside length ⟨c.here.start, c'.lastEnd⟩ := by
  refine ⟨?_, (h.inText hc).lastEnd⟩
  obtain ⟨t, us, rfl⟩ := List.exists_cons_of_ne_nil hts
  have hrest : c.rest = t :: (us ++ c'.rest) := h.rest
  have htokens : Token.InOrder length c.lastEnd (t :: (us ++ c'.rest)) := hrest ▸ hc.tokens
  obtain - | ⟨-, hinside, hbehind⟩ := htokens
  rw [here_cons hrest, h.lastEnd]
  exact Nat.le_trans hinside.1 hbehind.le_endFrom

end Moves

end Cursor

end ControlFile
