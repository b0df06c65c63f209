import ControlFile.Item.Parser
import ControlFile.Proofs.Item.Nesting
import ControlFile.Proofs.Item.Statement

/-!
# What a parser of items consumes and reports

`ItemParser.Scans L p r Q` says what the parser `p` does where reading stands at `r`, in a text of
`L` bytes.  It moves forward, and all that it reports, or fails with, is about stretches of the text.
If it succeeds, `Q` holds of the tokens consumed, of what has been reported, and of the result.
`ItemParser.Collects` is the same for what cannot fail.

`Accepts ts c` is about the words of conditionals: those in `ts` are `Conditionals`, and a word that
they leave is the next one, at `c`.
-/

namespace ControlFile

/-! ### Words of conditionals -/

/-- The word of a conditional at the cursor. -/
def Cursor.word? (c : Cursor) : Option ChainToken := c.kind?.bind (·.chainWord?)

theorem Cursor.word?_cons {c : Cursor} {t : Token} {ts : List Token} (h : c.rest = t :: ts) :
    c.word? = t.kind.chainWord? := by
  rw [word?, kind?_cons h, Option.bind_some]

theorem Cursor.word?_eq {c : Cursor} {k : TokenKind} (h : c.kind? = some k) :
    c.word? = k.chainWord? := by
  rw [word?, h, Option.bind_some]

/-- The words of conditionals in `ts` are read without a fault if `c` is behind them. -/
def Accepts (ts : List Token) (c : Cursor) : Prop :=
  ∃ n left, Conditionals n (chainWords ts) left ∧ ∀ w ∈ left, c.word? = some w

namespace Accepts

variable {ts us : List Token} {c c' : Cursor}

theorem of_plain (h : chainWords ts = []) (c : Cursor) : Accepts ts c :=
  ⟨0, none, h ▸ .nil, by simp⟩

theorem congr (h : Accepts us c) (hwords : chainWords ts = chainWords us) : Accepts ts c := by
  unfold Accepts
  rw [hwords]
  exact h

/-- No word is left where the next token is none. -/
theorem closed (h : Accepts ts c) (hw : c.word? = none) (c' : Cursor) : Accepts ts c' := by
  obtain ⟨n, left, hn, hleft⟩ := h
  cases left with
  | none => exact ⟨n, none, hn, by simp⟩
  | some w =>
    have h := hleft w rfl
    rw [hw] at h
    cases h

/-- One row of tokens behind the other.  A word that is left starts nothing. -/
theorem append (h : Accepts ts c) (hmoves : c.Moves us c') (h' : Accepts us c') :
    Accepts (ts ++ us) c' := by
  obtain ⟨n, left, hn, hleft⟩ := h
  obtain ⟨m, left', hm, hleft'⟩ := h'
  cases left with
  | none => exact ⟨_, _, chainWords_append ts us ▸ hn.append rfl hm, hleft'⟩
  | some w =>
    have hword := hleft w rfl
    cases us with
    | nil =>
      have hrest : c'.rest = c.rest := hmoves.rest.symm
      refine ⟨n, some w, by rwa [List.append_nil], fun t ht => ?_⟩
      cases ht
      rw [← hword]
      unfold Cursor.word? Cursor.kind? Cursor.peek?
      rw [hrest]
    | cons u us =>
      rw [Cursor.word?_cons hmoves.rest] at hword
      rw [chainWords_cons_some hword] at hm
      have hopening := hm.opening_of_cons
      rcases hn.word_of_left w rfl with hw | hw <;> rw [hw] at hopening <;> cases hopening

end Accepts

/-! ### Moves of reading -/

/-- From `r` reading gets to `r'` over the tokens `ts`, and reports `ds`. -/
structure Reading.Moves (L : Nat) (r : Reading) (ts : List Token) (ds : List Diagnostic)
    (r' : Reading) : Prop where
  cursor : r.cursor.Moves ts r'.cursor
  reported : r'.reported = r.reported ++ ds
  inside : ∀ d ∈ ds, d.range.Inside L

namespace Reading.Moves

variable {L : Nat} {r r' r'' : Reading} {ts us : List Token} {ds es : List Diagnostic}

theorem refl (r : Reading) : r.Moves L [] [] r :=
  ⟨.refl _, (List.append_nil _).symm, by simp⟩

theorem trans (h : r.Moves L ts ds r') (h' : r'.Moves L us es r'') :
    r.Moves L (ts ++ us) (ds ++ es) r'' where
  cursor := h.cursor.trans h'.cursor
  reported := by rw [h'.reported, h.reported, List.append_assoc]
  inside d hd := (List.mem_append.1 hd).elim (h.inside d) (h'.inside d)

theorem of_cursor {c : Cursor} (h : r.cursor.Moves ts c) : r.Moves L ts [] { r with cursor := c } :=
  ⟨h, (List.append_nil _).symm, by simp⟩

theorem advance {t : Token} {ts : List Token} (h : r.cursor.rest = t :: ts) :
    r.Moves L [t] [] r.advance := of_cursor (.advance h)

theorem report {d : Diagnostic} (h : d.range.Inside L) : r.Moves L [] [d] (r.report d) :=
  ⟨.refl _, rfl, by simpa using h⟩

end Reading.Moves

namespace ItemParser

variable {α β : Type} {L : Nat} {r : Reading}

/-! ### Parsers that may fail -/

/-- What the parser `p` does from `r` on. -/
def Scans (L : Nat) (p : ItemParser α) (r : Reading)
    (Q : List Token → List Diagnostic → α → Reading → Prop) : Prop :=
  r.cursor.InText L → match p r with
    | .ok a r' => ∃ ts ds, r.Moves L ts ds r' ∧ Q ts ds a r'
    | .error d r' => (∃ ts ds, r.Moves L ts ds r') ∧ d.range.Inside L

/-- What `p`, which cannot fail, does from `r` on. -/
def Collects (L : Nat) (p : StateM Reading α) (r : Reading)
    (Q : List Token → List Diagnostic → α → Reading → Prop) : Prop :=
  r.cursor.InText L → ∃ ts ds, r.Moves L ts ds (p r).2 ∧ Q ts ds (p r).1 (p r).2

namespace Scans

variable {p : ItemParser α} {f : α → ItemParser β}
variable {P P' : List Token → List Diagnostic → α → Reading → Prop}
variable {Q : List Token → List Diagnostic → β → Reading → Prop}

theorem assume (h : r.cursor.InText L → Scans L p r P) : Scans L p r P := fun hc => h hc hc

theorem bind (h : Scans L p r P)
    (hf : ∀ a r' us es, r.Moves L us es r' → P us es a r' →
      Scans L (f a) r' fun vs ds b r'' => Q (us ++ vs) (es ++ ds) b r'') :
    Scans L (p >>= f) r Q := by
  intro hc
  have hp := h hc
  cases hrun : p r with
  | error d r' =>
    rw [hrun] at hp
    rw [show (p >>= f) r = .error d r' by simp only [Bind.bind, EStateM.bind, hrun]]
    exact hp
  | ok a r' =>
    rw [hrun] at hp
    obtain ⟨us, es, hmoves, ha⟩ := hp
    have hnext := hf a r' us es hmoves ha (hmoves.cursor.inText hc)
    rw [show (p >>= f) r = f a r' by simp only [Bind.bind, EStateM.bind, hrun]]
    cases hrun' : f a r' with
    | error d r'' =>
      rw [hrun'] at hnext
      obtain ⟨⟨vs, ds, hvs⟩, hd⟩ := hnext
      exact ⟨⟨_, _, hmoves.trans hvs⟩, hd⟩
    | ok b r'' =>
      rw [hrun'] at hnext
      obtain ⟨vs, ds, hvs, hq⟩ := hnext
      exact ⟨_, _, hmoves.trans hvs, hq⟩

theorem mono (h : Scans L p r P) (hP : ∀ ts ds a r', r.Moves L ts ds r' → P ts ds a r' →
    P' ts ds a r') : Scans L p r P' := by
  intro hc
  have hp := h hc
  cases hrun : p r with
  | error d r' =>
    rw [hrun] at hp
    exact hp
  | ok a r' =>
    rw [hrun] at hp
    obtain ⟨ts, ds, hmoves, ha⟩ := hp
    exact ⟨ts, ds, hmoves, hP ts ds a r' hmoves ha⟩

theorem pure {a : α} (h : P [] [] a r) : Scans L (Pure.pure a) r P :=
  fun _ => ⟨[], [], .refl r, h⟩

theorem throw {d : Diagnostic} (h : r.cursor.InText L → d.range.Inside L) :
    Scans L (MonadExcept.throw d : ItemParser α) r P :=
  fun hc => ⟨⟨[], [], .refl r⟩, h hc⟩

theorem cursor_bind {f : Cursor → ItemParser β} (h : Scans L (f r.cursor) r Q) :
    Scans L (cursor >>= f) r Q := h

theorem advance {t : Token} {ts : List Token} (hrest : r.cursor.rest = t :: ts) :
    Scans L ItemParser.advance r fun us es _ r' => us = [t] ∧ es = [] ∧ r' = r.advance :=
  fun _ => ⟨[t], [], .advance hrest, rfl, rfl, rfl⟩

theorem advance_bind {t : Token} {ts : List Token} {f : Unit → ItemParser β}
    (hrest : r.cursor.rest = t :: ts)
    (h : Scans L (f ()) r.advance fun us ds b r' => Q (t :: us) ds b r') :
    Scans L (ItemParser.advance >>= f) r Q := by
  refine (advance hrest).bind ?_
  rintro _ _ _ _ _ ⟨rfl, rfl, rfl⟩
  exact h

theorem report {d : Diagnostic} (hd : r.cursor.InText L → d.range.Inside L) :
    Scans L (ItemParser.report d) r fun us es _ r' => us = [] ∧ es = [d] ∧ r' = r.report d :=
  fun hc => ⟨[], [d], .report (hd hc), rfl, rfl, rfl⟩

theorem report_bind {d : Diagnostic} {f : Unit → ItemParser β}
    (hd : r.cursor.InText L → d.range.Inside L)
    (h : Scans L (f ()) (r.report d) fun us ds b r' => Q us (d :: ds) b r') :
    Scans L (ItemParser.report d >>= f) r Q := by
  refine (report hd).bind ?_
  rintro _ _ _ _ _ ⟨rfl, rfl, rfl⟩
  exact h

/-- A parser of tokens reports nothing. -/
theorem lift {p : Parser α} {P : List Token → α → Prop} (h : Parser.Reads L p r.cursor P) :
    Scans L (liftM p) r fun us es a _ => es = [] ∧ P us a := by
  intro hc
  have hp := h hc
  cases hrun : p r.cursor with
  | error d c' =>
    rw [hrun] at hp
    obtain ⟨⟨ts, hts⟩, hd⟩ := hp
    rw [show (liftM p : ItemParser α) r = .error d { r with cursor := c' } by
      simp only [liftM, monadLift, MonadLift.monadLift, hrun]]
    exact ⟨⟨ts, [], .of_cursor hts⟩, hd⟩
  | ok a c' =>
    rw [hrun] at hp
    obtain ⟨ts, hts, hq⟩ := hp
    rw [show (liftM p : ItemParser α) r = .ok a { r with cursor := c' } by
      simp only [liftM, monadLift, MonadLift.monadLift, hrun]]
    exact ⟨ts, [], .of_cursor hts, rfl, hq⟩

theorem lift_bind {p : Parser α} {P : List Token → α → Prop} (h : Parser.Reads L p r.cursor P)
    (hf : ∀ a r' us, r.Moves L us [] r' → P us a →
      Scans L (f a) r' fun vs ds b r'' => Q (us ++ vs) ds b r'') :
    Scans L (liftM p >>= f) r Q := by
  refine (lift h).bind ?_
  rintro a r' us _ hmoves ⟨rfl, ha⟩
  exact hf a r' us hmoves ha

theorem of_collects {p : StateM Reading α} (h : Collects L p r P) : Scans L (liftM p) r P := h

theorem ite {p' : ItemParser α} {b : Prop} [Decidable b] (h : b → Scans L p r P)
    (h' : ¬b → Scans L p' r P) : Scans L (if b then p else p') r P := by
  split
  · exact h ‹_›
  · exact h' ‹_›

end Scans

namespace Collects

variable {p : StateM Reading α} {f : α → StateM Reading β}
variable {P : List Token → List Diagnostic → α → Reading → Prop}
variable {Q : List Token → List Diagnostic → β → Reading → Prop}

theorem bind (h : Collects L p r P)
    (hf : ∀ a r' us es, r.Moves L us es r' → P us es a r' →
      Collects L (f a) r' fun vs ds b r'' => Q (us ++ vs) (es ++ ds) b r'') :
    Collects L (p >>= f) r Q := by
  intro hc
  obtain ⟨us, es, hmoves, ha⟩ := h hc
  obtain ⟨vs, ds, hvs, hq⟩ := hf _ _ us es hmoves ha (hmoves.cursor.inText hc)
  exact ⟨_, _, hmoves.trans hvs, hq⟩

theorem pure {a : α} (h : P [] [] a r) : Collects L (Pure.pure a) r P :=
  fun _ => ⟨[], [], .refl r, h⟩

theorem get_bind {f : Reading → StateM Reading β} (h : Collects L (f r) r Q) :
    Collects L (get >>= f) r Q := h

theorem advance_bind {t : Token} {ts : List Token} {f : Unit → StateM Reading β}
    (hrest : r.cursor.rest = t :: ts)
    (h : Collects L (f ()) r.advance fun us ds b r' => Q (t :: us) ds b r') :
    Collects L (modify Reading.advance >>= f) r Q := by
  intro hc
  have hmoves : r.Moves L [t] [] r.advance := .advance hrest
  obtain ⟨us, ds, hus, hq⟩ := h (hmoves.cursor.inText hc)
  exact ⟨_, _, hmoves.trans hus, hq⟩

end Collects

end ItemParser

end ControlFile
