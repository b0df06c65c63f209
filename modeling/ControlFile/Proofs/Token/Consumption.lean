import ControlFile.Proofs.Expr.Lookahead
import ControlFile.Proofs.Token.Movement
import ControlFile.Proofs.Token.Word

/-!
# What a parser consumes

`Parser.Reads L p c Q` says what the parser `p` does at the cursor `c` of a text of `L`
bytes.  It moves forward, and if it fails the diagnostic is about a stretch of the text.  If it
succeeds, `Q` holds of the tokens that it has consumed and of its result.

The parsers of expressions and statements consume no words of conditionals and nothing that is
confined to the bodies of macros, and their results do not have the unique mark if the tokens do
not: this is `Plain`.  `Takes` is the same for tokens of other kinds.  Sequences of such parsers are
treated step by step (`Reads.andThen`, `Reads.before`, `Reads.advance_bind`).
-/

namespace ControlFile

namespace Cursor

variable {c : Cursor} {k : TokenKind}

theorem exists_cons (h : c.kind? = some k) : ∃ t ts, c.rest = t :: ts ∧ t.kind = k := by
  cases hrest : c.rest with
  | nil => simp [kind?, peek?, hrest] at h
  | cons t ts =>
    refine ⟨t, ts, rfl, ?_⟩
    simpa [kind?, peek?, hrest] using h

/-- Where a token is, there is one ahead. -/
theorem length_pos_of_kind? (h : c.kind? = some k) : 0 < c.rest.length := by
  obtain ⟨t, ts, hrest, -⟩ := exists_cons h
  rw [hrest]
  exact Nat.succ_pos _

theorem kind?_cons {t : Token} {ts : List Token} (h : c.rest = t :: ts) : c.kind? = some t.kind := by
  simp [kind?, peek?, h]

theorem isAt_iff : c.isAt k = true ↔ c.kind? = some k := by simp [isAt]

theorem peek?_eq_some {t : Token} (h : c.peek? 0 = some t) : ∃ ts, c.rest = t :: ts := by
  unfold peek? at h
  cases hrest : c.rest with
  | nil => simp [hrest] at h
  | cons s ts =>
    rw [hrest, List.getElem?_cons_zero, Option.some.injEq] at h
    exact ⟨ts, by rw [h]⟩

/-- Behind one token. -/
theorem kind?_advance : c.advance.kind? = c.peekKind? 1 := by
  unfold advance
  cases hrest : c.rest with
  | nil => simp [kind?, peekKind?, peek?, hrest]
  | cons t ts => simp [kind?, peekKind?, peek?, hrest]

end Cursor

namespace Parser

variable {α β : Type} {L n m : Nat} {p : Parser α} {f : α → Parser β} {c : Cursor}

/-- At `c` the parser moves forward in a text of `L` bytes.  `Q` holds of the tokens it
consumes and of its result, and it fails only at a stretch of the text. -/
def Reads (L : Nat) (p : Parser α) (c : Cursor) (Q : List Token → α → Prop) : Prop :=
  c.InText L → match p c with
    | .ok a c' => ∃ ts, c.Moves ts c' ∧ Q ts a
    | .error d c' => (∃ ts, c.Moves ts c') ∧ d.range.Inside L

namespace Reads

variable {Q R : List Token → α → Prop}

theorem of_ok {a : α} {c' : Cursor} {ts : List Token} (hp : p c = .ok a c') (hmoves : c.Moves ts c')
    (hq : Q ts a) : Reads L p c Q := by
  intro _
  rw [hp]
  exact ⟨ts, hmoves, hq⟩

theorem of_error {d : Diagnostic} (hp : p c = .error d c)
    (hd : c.InText L → d.range.Inside L) : Reads L p c Q := by
  intro hc
  rw [hp]
  exact ⟨⟨[], .refl c⟩, hd hc⟩

theorem assume (h : c.InText L → Reads L p c Q) : Reads L p c Q := fun hc => h hc hc

theorem bind {Q : List Token → β → Prop}
    (h : Reads L p c fun ts a => ∀ c', c.Moves ts c' →
      Reads L (f a) c' fun us b => Q (ts ++ us) b) :
    Reads L (p >>= f) c Q := by
  intro hc
  have hp := h hc
  cases hrun : p c with
  | error d c' =>
    rw [hrun] at hp
    rw [bind_of_error hrun]
    exact hp
  | ok a c' =>
    rw [hrun] at hp
    obtain ⟨ts, hts, hnext⟩ := hp
    have hf := hnext c' hts (hts.inText hc)
    rw [bind_of_ok hrun]
    cases hrun' : f a c' with
    | error d c'' =>
      rw [hrun'] at hf
      obtain ⟨⟨us, hus⟩, hd⟩ := hf
      exact ⟨⟨ts ++ us, hts.trans hus⟩, hd⟩
    | ok b c'' =>
      rw [hrun'] at hf
      obtain ⟨us, hus, hq⟩ := hf
      exact ⟨ts ++ us, hts.trans hus, hq⟩

theorem get_bind {f : Cursor → Parser β} {Q : List Token → β → Prop}
    (h : Reads L (f c) c Q) : Reads L (get >>= f) c Q := h

theorem pure_bind {a : α} {Q : List Token → β → Prop} (h : Reads L (f a) c Q) :
    Reads L (Pure.pure a >>= f) c Q := h

theorem imp (h : Reads L p c Q) (hqr : ∀ ts a, Q ts a → R ts a) : Reads L p c R := by
  intro hc
  have hp := h hc
  cases hrun : p c with
  | error d c' =>
    rw [hrun] at hp
    exact hp
  | ok a c' =>
    rw [hrun] at hp
    obtain ⟨ts, hts, hq⟩ := hp
    exact ⟨ts, hts, hqr ts a hq⟩

theorem ite {b : Prop} [Decidable b] {p' : Parser α} (h : b → Reads L p c Q)
    (h' : ¬b → Reads L p' c Q) : Reads L (if b then p else p') c Q := by
  split
  · exact h ‹_›
  · exact h' ‹_›

/-- What `f` consumes stands behind the token `t`. -/
theorem advance_behind {t : Token} {ts : List Token} {f : Unit → Parser β}
    {Q : List Token → β → Prop} (hrest : c.rest = t :: ts) (hf : Reads L (f ()) c.advance Q) :
    Reads L (Parser.advance >>= f) c fun us b => ∃ vs, us = t :: vs ∧ Q vs b := by
  intro hc
  have hmoves := Cursor.Moves.advance hrest
  have hnext := hf (hmoves.inText hc)
  have hrun : (Parser.advance >>= f) c = f () c.advance := rfl
  rw [hrun]
  cases hrun' : f () c.advance with
  | error d c' =>
    rw [hrun'] at hnext
    obtain ⟨⟨us, hus⟩, hd⟩ := hnext
    exact ⟨⟨_, hmoves.trans hus⟩, hd⟩
  | ok b c' =>
    rw [hrun'] at hnext
    obtain ⟨us, hus, hb⟩ := hnext
    exact ⟨_, hmoves.trans hus, us, rfl, hb⟩

theorem fail (fault : Fault) : Reads L (Parser.fail fault : Parser α) c Q :=
  of_error rfl fun hc => hc.here

theorem failExpected (what : Expected) : Reads L (Parser.failExpected what : Parser α) c Q :=
  of_error rfl fun hc => hc.here

end Reads

/-! ### Tokens of some kinds -/

/-- The tokens, at least `n`, are all of kinds in `K`; and if none of them is marked, `F` holds of
the result. -/
structure Takes (K : TokenKind → Bool) (n : Nat) (F : α → Prop) (ts : List Token) (a : α) :
    Prop where
  length : n ≤ ts.length
  kinds : ∀ t ∈ ts, K t.kind = true
  unmarked : (∀ t ∈ ts, t.IsUnmarked) → F a

/-- The tokens, at least `n`, may occur in an expression or a statement: none of them is a word of
a conditional or confined to the bodies of macros. -/
abbrev Plain (n : Nat) (F : α → Prop) : List Token → α → Prop := Takes TokenKind.isPlain n F

namespace Takes

variable {K K' : TokenKind → Bool} {F : α → Prop} {ts : List Token} {a : α}

theorem widen (h : Takes K n F ts a) (hK : ∀ k, K k = true → K' k = true) : Takes K' n F ts a :=
  ⟨h.length, fun t ht => hK _ (h.kinds t ht), h.unmarked⟩

/-- There are no words of conditionals. -/
theorem words (h : Plain n F ts a) : chainWords ts = [] :=
  chainWords_eq_nil fun t ht => (TokenKind.isPlain_iff.1 (h.kinds t ht)).1

/-- There is nothing that is confined to the bodies of macros. -/
theorem not_confined (h : Plain n F ts a) : ∀ t ∈ ts, t.kind.isConfined = false :=
  fun t ht => (TokenKind.isPlain_iff.1 (h.kinds t ht)).2

end Takes

namespace Reads

variable {K K' : TokenKind → Bool} {F F' : α → Prop} {G : β → Prop}

theorem pure {a : α} (h : F a) : Reads L (Pure.pure a : Parser α) c (Takes K 0 F) :=
  of_ok rfl (.refl c) ⟨Nat.le_refl _, List.forall_mem_nil _, fun _ => h⟩

theorem mono (h : Reads L p c (Takes K n F)) (hF : ∀ a, F a → F' a) :
    Reads L p c (Takes K n F') :=
  h.imp fun _ a hp => ⟨hp.length, hp.kinds, fun hts => hF a (hp.unmarked hts)⟩

theorem weaken (h : Reads L p c (Takes K n F)) : Reads L p c (Takes K 0 F) :=
  h.imp fun _ _ hp => ⟨Nat.zero_le _, hp.kinds, hp.unmarked⟩

theorem widen (h : Reads L p c (Takes K n F)) (hK : ∀ k, K k = true → K' k = true) :
    Reads L p c (Takes K' n F) := h.imp fun _ _ hp => hp.widen hK

/-- One parser behind the other. -/
theorem sequence (hp : Reads L p c (Takes K n F))
    (hf : ∀ a c', Reads L (f a) c' (Takes K m fun b => F a → G b)) :
    Reads L (p >>= f) c (Takes K (n + m) G) := by
  refine .bind (hp.imp fun ts a ha c' _ => ?_)
  refine (hf a c').imp fun us b hb => ⟨?_, ?_, fun h => ?_⟩
  · rw [List.length_append]
    exact Nat.add_le_add ha.length hb.length
  · exact fun t ht => (List.mem_append.1 ht).elim (ha.kinds t) (hb.kinds t)
  · exact hb.unmarked (fun t ht => h t (List.mem_append_right _ ht))
      (ha.unmarked fun t ht => h t (List.mem_append_left _ ht))

/-- The first parser consumes what has to be consumed. -/
theorem andThen (hp : Reads L p c (Takes K n F))
    (hf : ∀ a c', Reads L (f a) c' (Takes K 0 fun b => F a → G b)) :
    Reads L (p >>= f) c (Takes K n G) := sequence hp hf

/-- The second parser consumes what has to be consumed. -/
theorem before (hp : Reads L p c (Takes K 0 F))
    (hf : ∀ a c', Reads L (f a) c' (Takes K n fun b => F a → G b)) :
    Reads L (p >>= f) c (Takes K n G) := by
  have h := sequence hp hf
  rwa [Nat.zero_add] at h

/-- The token `t` is consumed. -/
theorem advance_token_bind {t : Token} {ts : List Token} {f : Unit → Parser β}
    (hrest : c.rest = t :: ts) (hw : K t.kind = true)
    (hf : Reads L (f ()) c.advance (Takes K 0 fun b => t.IsUnmarked → G b)) :
    Reads L (Parser.advance >>= f) c (Takes K 1 G) := by
  refine (advance_behind hrest hf).imp fun us b => ?_
  rintro ⟨vs, rfl, hb⟩
  refine ⟨Nat.le_add_left .., List.forall_mem_cons.2 ⟨hw, hb.kinds⟩, fun h => ?_⟩
  exact hb.unmarked (fun s hs => h s (List.mem_cons_of_mem _ hs)) (h t (by simp))

/-- A token is consumed whose kind is known. -/
theorem advance_bind {k : TokenKind} {f : Unit → Parser β} (hk : c.kind? = some k)
    (hw : K k = true) (hf : Reads L (f ()) c.advance (Takes K 0 G)) :
    Reads L (Parser.advance >>= f) c (Takes K 1 G) := by
  obtain ⟨t, ts, hrest, rfl⟩ := Cursor.exists_cons hk
  exact advance_token_bind hrest hw (hf.mono fun b hb _ => hb)

theorem advance {k : TokenKind} (hk : c.kind? = some k) (hw : K k = true) :
    Reads L Parser.advance c (Takes K 1 fun _ => True) := by
  obtain ⟨t, ts, hrest, rfl⟩ := Cursor.exists_cons hk
  exact of_ok rfl (.advance hrest)
    ⟨Nat.le_refl _, List.forall_mem_singleton.2 hw, fun _ => trivial⟩

/-- One token is consumed if it is of the kind, and none otherwise. -/
theorem takeIf_token (k : TokenKind) : Reads L (Parser.takeIf k) c fun ts b =>
    (b = true ∧ c.kind? = some k ∧ ∃ t, ts = [t] ∧ t.kind = k) ∨ (b = false ∧ ts = []) := by
  by_cases hk : c.kind? = some k
  · obtain ⟨t, ts, hrest, ht⟩ := Cursor.exists_cons hk
    refine of_ok (a := true) ?_ (.advance hrest) (.inl ⟨rfl, hk, t, rfl, ht⟩)
    rw [Parser.takeIf, if_pos (Cursor.isAt_iff.2 hk)]
  · refine of_ok (a := false) ?_ (.refl c) (.inr ⟨rfl, rfl⟩)
    rw [Parser.takeIf, if_neg (fun h => hk (Cursor.isAt_iff.1 h))]

theorem takeIf {k : TokenKind} (hw : K k = true) :
    Reads L (Parser.takeIf k) c (Takes K 0 fun _ => True) := by
  refine (takeIf_token k).imp fun ts b h => ⟨Nat.zero_le _, ?_, fun _ => trivial⟩
  rcases h with ⟨-, -, t, rfl, rfl⟩ | ⟨-, rfl⟩
  · exact List.forall_mem_singleton.2 hw
  · exact List.forall_mem_nil _

/-- One token of the kind is consumed. -/
theorem expect_token (k : TokenKind) (what : Expected) :
    Reads L (Parser.expect k what) c fun ts _ => ∃ t, ts = [t] ∧ t.kind = k := by
  by_cases hk : c.kind? = some k
  · obtain ⟨t, ts, hrest, ht⟩ := Cursor.exists_cons hk
    refine of_ok (a := ()) ?_ (.advance hrest) ⟨t, rfl, ht⟩
    rw [Parser.expect, if_pos (Cursor.isAt_iff.2 hk)]
  · refine of_error (d := ⟨.expected what c.found, c.here⟩) ?_ fun hc => hc.here
    rw [Parser.expect, if_neg (fun h => hk (Cursor.isAt_iff.1 h))]

theorem expect {k : TokenKind} (hw : K k = true) (what : Expected) :
    Reads L (Parser.expect k what) c (Takes K 1 fun _ => True) := by
  refine (expect_token k what).imp fun ts _ h => ?_
  obtain ⟨t, rfl, rfl⟩ := h
  exact ⟨Nat.le_refl _, List.forall_mem_singleton.2 hw, fun _ => trivial⟩

/-- The text of a token that is no directive does not start as the unique mark does. -/
theorem takeText {k : TokenKind} (hk : c.kind? = some k) (hw : K k = true) :
    Reads L Parser.takeText c
      (Takes K 1 fun text => k.isDirective = false ∨ k = .directive .unique → text ≠ uniqueMark) := by
  obtain ⟨t, ts, hrest, rfl⟩ := Cursor.exists_cons hk
  refine of_ok (a := t.text) ?_ (.advance hrest)
    ⟨Nat.le_refl _, List.forall_mem_singleton.2 hw, fun h hd => ?_⟩
  · rw [Parser.takeText, Cursor.peek?, hrest]
    rfl
  · obtain ⟨hne, htext⟩ := h t (by simp)
    rcases hd with hd | hd
    · exact (htext hd).ne_uniqueMark
    · exact absurd hd hne

end Reads

end Parser

end ControlFile
