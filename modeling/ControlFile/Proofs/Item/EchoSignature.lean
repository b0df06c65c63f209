import ControlFile.Proofs.Item.EchoSite

/-!
# Heads of macros are read back

The head of a macro is a name and, if a parenthesis touches it, a list of parameters.  A parameter may
be left out, but not the only one.
-/

namespace ControlFile

open Lexer Lexeme

/-! ### Parameters -/

namespace MacroParam

/-- Nothing is written for it. -/
def isEmpty (p : MacroParam) : Bool := !p.byReference && p.name.isNone

def Legible (p : MacroParam) : Prop := ∀ n ∈ p.name, IsName n

def row (s : Bool) (p : MacroParam) : List Lexeme :=
  (if p.byReference then [.ofChar '&' s] else []) ++
    (p.name.map fun n => ⟨.ident, n, !p.byReference && s⟩).toList

/-- What is written behind a parameter, up to the parenthesis. -/
def behind : List MacroParam → String
  | [] => ")"
  | p :: ps => ", " ++ p.render ++ behind ps

def rowBehind : (s : Bool) → List MacroParam → List Lexeme
  | s, [] => [.ofChar ')' s]
  | s, p :: ps => .ofChar ',' s :: (p.row true ++ rowBehind p.isEmpty ps)

/-- What is written behind the opening parenthesis. -/
def rowList : List MacroParam → List Lexeme
  | [] => [.ofChar ')' false]
  | p :: ps => p.row false ++ rowBehind false ps

/-- The only parameter is not left out. -/
def Listed (ps : List MacroParam) : Prop := ∀ p ∈ ps, p.Legible ∧ (ps = [p] → p.isEmpty = false)

theorem closed_behind (ps : List MacroParam) : Closed (behind ps).toList := by
  cases ps with
  | nil => exact closed_cons _ rfl
  | cons p ps =>
    rw [behind, String.append_assoc, String.toList_append]
    exact closed_cons _ rfl

theorem spells_render {p : MacroParam} (h : p.Legible) (he : p.isEmpty = false) :
    Spells p.render.toList fun s => p.row s := by
  obtain ⟨name, byReference⟩ := p
  cases name with
  | none =>
    cases byReference with
    | false => cases he
    | true => exact spells_mark (c := '&') rfl
  | some n =>
    have hname : Prints n fun s => [⟨.ident, n, s⟩] := LexesAs.prints (h n rfl) rfl (by simp)
    cases byReference with
    | false => simpa [render, row] using hname.spells
    | true => exact (hname.afterMark (c := '&') rfl).spells

/-- A parameter, and what is behind it. -/
theorem spells_append {p : MacroParam} (h : p.Legible) {text : String} (hc : Closed text.toList)
    (hne : text.toList ≠ []) {row : Bool → List Lexeme} (ht : Spells text.toList row) :
    Spells (p.render ++ text).toList fun s => p.row s ++ row (s && p.isEmpty) := by
  rw [String.toList_append]
  cases he : p.isEmpty with
  | false => simpa using (spells_render h he).append ht hc hne
  | true =>
    obtain ⟨name, byReference⟩ := p
    rw [isEmpty, Bool.and_eq_true, Bool.not_eq_true', Option.isNone_iff_eq_none] at he
    obtain ⟨rfl, rfl⟩ := he
    simpa [render, MacroParam.row] using ht

theorem behind_ne_nil (ps : List MacroParam) : (behind ps).toList ≠ [] := by
  cases ps <;> simp [behind]

theorem spells_behind {ps : List MacroParam} (h : ∀ p ∈ ps, p.Legible) :
    Spells (behind ps).toList fun s => rowBehind s ps := by
  induction ps with
  | nil => exact spells_mark (c := ')') rfl
  | cons p ps ih =>
    obtain ⟨hp, hps⟩ := List.forall_mem_cons.1 h
    have hrest := (spells_append hp (closed_behind ps) (behind_ne_nil ps) (ih hps)).afterBlank
      (c := ' ') rfl
    have htext : (behind (p :: ps)).toList = ',' :: ' ' :: (p.render ++ behind ps).toList := by
      simp [behind, String.append_assoc]
    rw [htext]
    exact hrest.afterMark (c := ',') rfl

theorem intercalate_behind (p : MacroParam) (ps : List MacroParam) :
    ", ".intercalate ((p :: ps).map (·.render)) ++ ")" = p.render ++ behind ps := by
  induction ps generalizing p with
  | nil => simp [behind]
  | cons q ps ih =>
    rw [List.map_cons, List.map_cons, String.intercalate_cons_cons, ← List.map_cons, behind,
      String.append_assoc, ih, String.append_assoc, String.append_assoc]

theorem isRead_row {p : MacroParam} (s : Bool) : ∀ l ∈ p.row s, l.IsRead := by
  obtain ⟨name, byReference⟩ := p
  cases name <;> cases byReference <;>
    simp [row, Lexeme.IsRead, TokenKind.isTrivia, ofChar, single]

theorem isRead_rowBehind (ps : List MacroParam) (s : Bool) : ∀ l ∈ rowBehind s ps, l.IsRead := by
  induction ps generalizing s with
  | nil => exact List.forall_mem_singleton.2 (isRead_ofChar rfl s)
  | cons p ps ih => exact List.forall_mem_cons.2 ⟨isRead_ofChar rfl s, List.forall_mem_append.2
      ⟨isRead_row true, ih _⟩⟩

/-- A list of parameters, behind the opening parenthesis. -/
theorem touches_list {ps : List MacroParam} (h : ∀ p ∈ ps, p.Legible) :
    Touches (", ".intercalate (ps.map (·.render)) ++ ")").toList (rowList ps) := by
  cases ps with
  | nil => exact (spells_mark (c := ')') rfl).touches
  | cons p ps =>
    obtain ⟨hp, hps⟩ := List.forall_mem_cons.1 h
    rw [intercalate_behind]
    exact (spells_append hp (closed_behind ps) (behind_ne_nil ps) (spells_behind hps)).touches

theorem isRead_rowList (ps : List MacroParam) : ∀ l ∈ rowList ps, l.IsRead := by
  cases ps with
  | nil => exact List.forall_mem_singleton.2 (isRead_ofChar rfl false)
  | cons p ps => exact List.forall_mem_append.2 ⟨isRead_row false, isRead_rowBehind ps false⟩

end MacroParam

/-! ### Heads -/

namespace Signature

/-- What the head of a macro that has been read is like. -/
structure Legible (sig : Signature) : Prop where
  name : IsName sig.name
  params : MacroParam.Listed sig.params
  parenthesized : sig.parenthesized = false → sig.params = []

def row (s : Bool) (sig : Signature) : List Lexeme :=
  (if sig.byReference then [.ofChar '&' s] else []) ++
    ⟨.ident, sig.name, sig.byReference || s⟩ ::
      (if sig.parenthesized then .ofChar '(' false :: MacroParam.rowList sig.params else [])

theorem trails_params {sig : Signature} (h : sig.Legible) :
    Trails (if sig.parenthesized then "(" ++ ", ".intercalate (sig.params.map (·.render)) ++ ")" else "")
      (if sig.parenthesized then .ofChar '(' false :: MacroParam.rowList sig.params else []) := by
  cases sig.parenthesized with
  | false => exact Trails.nil
  | true =>
    rw [if_pos rfl, if_pos rfl]
    have hlist := (MacroParam.touches_list fun p hp => (h.params p hp).1).afterMark (c := '(') rfl
    refine ⟨?_, ?_, List.forall_mem_cons.2 ⟨isRead_ofChar rfl false, MacroParam.isRead_rowList _⟩⟩
    · simpa [String.append_assoc] using hlist.touches
    · rw [String.append_assoc, String.toList_append]
      exact closed_cons _ rfl

/-- The name with the parameters. -/
theorem prints_name {sig : Signature} (h : sig.Legible) :
    Prints (sig.name ++ (if sig.parenthesized then
        "(" ++ ", ".intercalate (sig.params.map (·.render)) ++ ")" else ""))
      fun s => ⟨.ident, sig.name, s⟩ ::
        (if sig.parenthesized then .ofChar '(' false :: MacroParam.rowList sig.params else []) :=
  (LexesAs.prints h.name rfl (by simp)).trails (trails_params h)

theorem prints {sig : Signature} (h : sig.Legible) : Prints sig.render fun s => sig.row s := by
  have hname := prints_name h
  obtain ⟨name, byReference, params, parenthesized, range⟩ := sig
  cases byReference with
  | false => simpa [render, row] using hname
  | true =>
    have := (prints_mark (c := '&') rfl).spaced hname
    simpa [render, row, String.append_assoc] using this

end Signature

namespace Parser

variable {c : Cursor}

/-! ### Parameters are read -/

/-- The name of a parameter, if it has one. -/
def macroName? : Parser (Option String) := do
  if (← get).isAt .ident then return some (← takeText) else return none

theorem macroParams_succ (limit : Nat) : macroParams (limit + 1) = (do
    let byReference ← takeIf (.mark .ampersand)
    let n ← macroName?
    if ← takeIf (.mark .comma) then return ⟨n, byReference⟩ :: (← macroParams limit)
    else
      expect (.mark .closeParen) .parametersEnd
      return [⟨n, byReference⟩]) := by
  rw [macroParams, macroName?]
  simp only [bind_assoc]
  congr; funext _; congr; funext c
  split <;> simp

/-- The mark and the name of a parameter, in front of what is neither. -/
theorem macroParam_row {p : MacroParam} {s : Bool} {rs : List Lexeme}
    (hc : c.lexemes = p.row s ++ rs)
    (hrs : ∃ m, Lexeme.kind? rs = some (.mark m) ∧ m ≠ .ampersand) :
    Gives (takeIf (.mark .ampersand)) c fun byReference d => byReference = p.byReference ∧
      Gives macroName? d fun n d' => n = p.name ∧ d'.lexemes = rs := by
  obtain ⟨m, hm, hne⟩ := hrs
  obtain ⟨name, byReference⟩ := p
  have hname : ∀ (d : Cursor) t, d.lexemes = (name.map fun n => (⟨.ident, n, t⟩ : Lexeme)).toList ++ rs →
      Gives macroName? d fun n d' => n = name ∧ d'.lexemes = rs := by
    intro d t hd
    unfold macroName?
    refine Gives.get_bind ?_
    rw [Cursor.isAt_eq, hd]
    cases name with
    | none =>
      rw [Option.map_none, Option.toList_none, List.nil_append, hm, if_neg (by simp)]
      exact Gives.pure ⟨rfl, hd⟩
    | some n =>
      rw [Option.map_some, Option.toList_some, List.singleton_append] at hd
      rw [if_pos (by simp)]
      exact ⟨some n, d.advance, by rw [bind_of_ok (takeText_run hd)]; rfl, rfl, Cursor.lexemes_advance hd⟩
  rw [MacroParam.row, List.append_assoc] at hc
  cases byReference with
  | true =>
    have hk : Lexeme.kind? c.lexemes = some (.mark .ampersand) := by rw [hc]; rfl
    exact ⟨true, c.advance, takeIf_pos hk, rfl, hname _ _ (Cursor.lexemes_advance hc)⟩
  | false =>
    have hk : Lexeme.kind? c.lexemes ≠ some (.mark .ampersand) := by
      rw [hc]
      cases name with
      | none => simpa [hm] using hne
      | some n => simp
    exact ⟨false, c, takeIf_neg hk, rfl, hname c _ hc⟩

theorem macroParams_row {p : MacroParam} {ps : List MacroParam} {limit : Nat} (hlimit : ps.length < limit)
    {s t : Bool} {rs : List Lexeme}
    (hc : c.lexemes = p.row s ++ (MacroParam.rowBehind t ps ++ rs)) :
    ReadsTo (macroParams limit) c id (p :: ps) rs := by
  induction ps generalizing c p s t limit with
  | nil =>
    cases limit with
    | zero => exact absurd hlimit (Nat.not_lt_zero _)
    | succ limit =>
      obtain ⟨_, c₁, hrun₁, rfl, n, c₂, hrun₂, rfl, hc₂⟩ := macroParam_row hc ⟨_, rfl, by simp⟩
      refine ⟨[p], c₂.advance, ?_, rfl, Cursor.lexemes_advance hc₂⟩
      have hcomma : Lexeme.kind? c₂.lexemes ≠ some (.mark .comma) := by
        rw [hc₂]
        simp [MacroParam.rowBehind, ofChar, single]
      have hclose : Lexeme.kind? c₂.lexemes = some (.mark .closeParen) := by rw [hc₂]; rfl
      rw [macroParams_succ, bind_of_ok hrun₁, bind_of_ok hrun₂, bind_of_ok (takeIf_neg hcomma),
        if_neg Bool.false_ne_true, bind_of_ok (expect_pos _ hclose)]
      rfl
  | cons q qs ih =>
    cases limit with
    | zero => exact absurd hlimit (Nat.not_lt_zero _)
    | succ limit =>
      obtain ⟨_, c₁, hrun₁, rfl, n, c₂, hrun₂, rfl, hc₂⟩ := macroParam_row hc ⟨_, rfl, by simp⟩
      have hcomma : Lexeme.kind? c₂.lexemes = some (.mark .comma) := by rw [hc₂]; rfl
      rw [MacroParam.rowBehind, List.cons_append, List.append_assoc] at hc₂
      obtain ⟨qs', c₃, hrun₃, hqs, hc₃⟩ := ih (Nat.lt_of_succ_lt_succ hlimit) (Cursor.lexemes_advance hc₂)
      cases hqs
      refine ⟨p :: q :: qs, c₃, ?_, rfl, hc₃⟩
      rw [macroParams_succ, bind_of_ok hrun₁, bind_of_ok hrun₂, bind_of_ok (takeIf_pos hcomma),
        if_pos rfl, bind_of_ok hrun₃]
      rfl

theorem macroParamList_row {ps : List MacroParam} (h : MacroParam.Listed ps) {s : Bool}
    {rs : List Lexeme} (hc : c.lexemes = .ofChar '(' s :: (MacroParam.rowList ps ++ rs)) :
    ReadsTo macroParamList c id ps rs := by
  have hadvance := Cursor.lexemes_advance hc
  cases ps with
  | nil =>
    have hclose : Lexeme.kind? c.advance.lexemes = some (.mark .closeParen) := by rw [hadvance]; rfl
    refine ⟨[], c.advance.advance, ?_, rfl, Cursor.lexemes_advance hadvance⟩
    rw [macroParamList, bind_of_ok (advance_run c), bind_of_ok (takeIf_pos hclose)]
    rfl
  | cons p ps =>
    have hopen : Lexeme.kind? c.advance.lexemes ≠ some (.mark .closeParen) := by
      rw [hadvance, MacroParam.rowList, List.append_assoc]
      obtain ⟨name, byReference⟩ := p
      cases name <;> cases byReference
      · cases ps with
        | nil => exact Bool.noConfusion ((h _ (List.mem_singleton_self _)).2 rfl)
        | cons q qs => simp [MacroParam.row, MacroParam.rowBehind, ofChar, single]
      all_goals simp [MacroParam.row, ofChar, single]
    rw [MacroParam.rowList, List.append_assoc] at hadvance
    have hlength : ps.length < c.advance.rest.length + 1 := by
      have hle : ∀ (ps : List MacroParam) s, ps.length ≤ (MacroParam.rowBehind s ps).length := by
        intro ps
        induction ps with
        | nil => simp
        | cons p ps ih =>
          intro s
          have := ih p.isEmpty
          simp only [MacroParam.rowBehind, List.length_cons, List.length_append]
          omega
      have := hle ps false
      rw [← Cursor.length_lexemes, hadvance, List.length_append, List.length_append]
      omega
    obtain ⟨ps', c', hrun, hps, hc'⟩ := macroParams_row hlength hadvance
    refine ⟨ps', c', ?_, hps, hc'⟩
    rw [macroParamList, bind_of_ok (advance_run c), bind_of_ok (takeIf_neg hopen),
      if_neg Bool.false_ne_true, get_bind]
    exact hrun

/-- **The head of a macro is read.** -/
theorem signature_row {sig : Signature} (h : sig.Legible) {s : Bool} {rs : List Lexeme}
    (hrs : IsLoose rs) (hc : c.lexemes = sig.row s ++ rs) :
    ReadsTo signature c (Signature.change .bare) (sig.change .bare) rs := by
  obtain ⟨n, byReference, params, parenthesized, range⟩ := sig
  -- the name, behind the mark for references
  have hname : ∀ (d : Cursor) t start, d.lexemes = ⟨.ident, n, t⟩ ::
      ((if parenthesized then .ofChar '(' false :: MacroParam.rowList params else []) ++ rs) →
      Gives (do
        if (← get).isAt .ident then
          let n ← takeText
          let c ← get
          let parenthesized := c.isAt (.mark .openParen) && !c.isSpaced 0
          let params ← if parenthesized then macroParamList else pure []
          return ⟨n, byReference, params, parenthesized, ⟨start, (← get).lastEnd⟩⟩
        else failExpected (.name .macroName) : Parser Signature) d
        fun sig d' => sig.change .bare =
          (⟨n, byReference, params, parenthesized, .emptyAt 0⟩ : Signature) ∧ d'.lexemes = rs := by
    intro d t start hd
    have hadvance := Cursor.lexemes_advance hd
    refine Gives.get_bind ?_
    rw [Cursor.isAt_eq, hd, if_pos (by simp)]
    refine Gives.bind ⟨n, d.advance, takeText_run hd, Gives.get_bind ?_⟩
    rw [Cursor.isAt_eq, Cursor.isSpaced_eq, hadvance]
    cases parenthesized with
    | false =>
      have hempty : params = [] := h.parenthesized rfl
      subst hempty
      have hloose : (Lexeme.kind? rs == some (.mark .openParen) &&
          !(rs[0]?.map (·.spaced)).getD true) = false := by
        cases rs with
        | nil => rfl
        | cons l ls =>
          cases hk : l.kind == .mark .openParen with
          | false =>
            rw [beq_eq_false_iff_ne] at hk
            simp [hk]
          | true => simp [hrs l rfl (beq_iff_eq.1 hk)]
      rw [if_neg Bool.false_ne_true, List.nil_append, hloose]
      exact ⟨_, d.advance, rfl, rfl, hadvance⟩
    | true =>
      rw [if_pos rfl] at hadvance ⊢
      obtain ⟨ps, d', hrun, hps, hd'⟩ := macroParamList_row h.params hadvance
      cases hps
      refine ⟨⟨n, byReference, params, true, ⟨start, d'.lastEnd⟩⟩, d', ?_, rfl, hd'⟩
      simp only [List.cons_append, kind?_cons, ofChar, single, beq_self_eq_true, List.getElem?_cons_zero,
        Option.map_some, Option.getD_some, Bool.not_false, Bool.and_self, if_pos]
      rw [bind_of_ok hrun]
      rfl
  unfold signature
  refine Gives.get_bind (Gives.bind ?_)
  rw [Signature.row, List.append_assoc] at hc
  cases byReference with
  | true =>
    have hk : Lexeme.kind? c.lexemes = some (.mark .ampersand) := by rw [hc]; rfl
    exact ⟨true, c.advance, takeIf_pos hk, hname _ _ _ (Cursor.lexemes_advance hc)⟩
  | false =>
    have hk : Lexeme.kind? c.lexemes ≠ some (.mark .ampersand) := by rw [hc]; simp
    exact ⟨false, c, takeIf_neg hk, hname _ _ _ hc⟩

/-! ### Heads that have been read -/

theorem ensures_macroName? (hc : c.Genuine) : Ensures macroName? c fun n c' =>
    (∀ m ∈ n, IsName m) ∧ c'.lexemes <:+ c.lexemes ∧ (n = none → c' = c) := by
  unfold macroName?
  refine Ensures.get_bind ?_
  rw [Cursor.isAt_eq]
  by_cases hk : Lexeme.kind? c.lexemes = some .ident
  · rw [if_pos (by simpa using hk)]
    obtain ⟨text, s, ls, hrow⟩ := Cursor.exists_of_kind? hk
    refine Ensures.bind ((ensures_takeText hrow).mono ?_)
    rintro _ _ ⟨rfl, rfl⟩
    refine Ensures.pure ⟨?_, (Cursor.passes_advance hrow).suffix, by simp⟩
    rintro _ ⟨⟩
    exact hc ⟨.ident, _, s⟩ (by rw [hrow]; exact List.mem_cons_self ..)
  · rw [if_neg (by simpa using hk)]
    exact Ensures.pure ⟨by simp, List.suffix_refl _, fun _ => rfl⟩

/-- Parameters.  Nothing is consumed for one that is left out. -/
theorem ensures_macroParams (limit : Nat) {c : Cursor} (hc : c.Genuine) (hlimit : c.lexemes.length < limit) :
    Ensures (macroParams limit) c fun ps c' => c'.lexemes <:+ c.lexemes ∧ ps ≠ [] ∧
      (∀ p ∈ ps, p.Legible) ∧ ∀ p, ps = [p] → p.isEmpty = true →
        Lexeme.kind? c.lexemes = some (.mark .closeParen) := by
  induction limit generalizing c with
  | zero => exact absurd hlimit (Nat.not_lt_zero _)
  | succ limit ih =>
    rw [macroParams_succ]
    refine Ensures.bind ?_
    have hbehind : ∀ (byReference : Bool) (d : Cursor), d.lexemes <:+ c.lexemes →
        (byReference = false → d = c) → Ensures (do
          let n ← macroName?
          if ← takeIf (.mark .comma) then return ⟨n, byReference⟩ :: (← macroParams limit)
          else
            expect (.mark .closeParen) .parametersEnd
            return [⟨n, byReference⟩] : Parser (List MacroParam)) d fun ps c' =>
          c'.lexemes <:+ c.lexemes ∧ ps ≠ [] ∧ (∀ p ∈ ps, p.Legible) ∧
            ∀ p, ps = [p] → p.isEmpty = true → Lexeme.kind? c.lexemes = some (.mark .closeParen) := by
      intro byReference d hsuffix hd
      refine Ensures.bind ((ensures_macroName? (hc.of_suffix hsuffix)).mono fun n d' h => ?_)
      obtain ⟨hname, hsuffix', hnone⟩ := h
      have hsuffix₂ := hsuffix'.trans hsuffix
      refine Ensures.bind (Ensures.takeIf (fun hcomma => ?_) fun _ => ?_)
      · obtain ⟨text, s, ls, hrow⟩ := Cursor.exists_of_kind? hcomma
        have hpasses := Cursor.passes_advance hrow
        have hshort := Nat.lt_of_lt_of_le hpasses.shorter hsuffix₂.length_le
        rw [if_pos rfl]
        refine Ensures.bind ((ih (hc.of_suffix (hpasses.suffix.trans hsuffix₂)) (by omega)).mono
          fun ps c' h => Ensures.pure ?_)
        exact ⟨h.1.trans (hpasses.suffix.trans hsuffix₂), by simp,
          List.forall_mem_cons.2 ⟨hname, h.2.2.1⟩, fun p hp => absurd (List.cons.inj hp).2 h.2.1⟩
      · rw [if_neg Bool.false_ne_true]
        refine Ensures.bind (Ensures.expect fun hclose => Ensures.pure ?_)
        obtain ⟨text, s, ls, hrow⟩ := Cursor.exists_of_kind? hclose
        refine ⟨(Cursor.passes_advance hrow).suffix.trans hsuffix₂, by simp,
          List.forall_mem_singleton.2 hname, ?_⟩
        rintro _ ⟨⟩ hempty
        simp only [MacroParam.isEmpty, Bool.and_eq_true, Bool.not_eq_true', Option.isNone_iff_eq_none]
          at hempty
        rw [← hd hempty.1, ← hnone hempty.2]
        exact hclose
    refine Ensures.takeIf (fun hk => ?_) fun _ => hbehind false c (List.suffix_refl _) fun _ => rfl
    obtain ⟨text, s, ls, hrow⟩ := Cursor.exists_of_kind? hk
    exact hbehind true _ (Cursor.passes_advance hrow).suffix (by simp)

theorem ensures_macroParamList (hc : c.Genuine) (hk : Lexeme.kind? c.lexemes = some (.mark .openParen)) :
    Ensures macroParamList c fun ps c' => c'.lexemes <:+ c.lexemes ∧ MacroParam.Listed ps := by
  obtain ⟨text, s, ls, hrow⟩ := Cursor.exists_of_kind? hk
  have hpasses := Cursor.passes_advance hrow
  unfold macroParamList
  refine Ensures.advance_bind (Ensures.bind (Ensures.takeIf (fun hclose => ?_) fun hclose => ?_))
  · obtain ⟨text', s', ls', hrow'⟩ := Cursor.exists_of_kind? hclose
    rw [if_pos rfl]
    exact Ensures.pure ⟨(Cursor.passes_advance hrow').suffix.trans hpasses.suffix, by
      simp [MacroParam.Listed]⟩
  · rw [if_neg Bool.false_ne_true]
    refine Ensures.get_bind ((ensures_macroParams _ (hpasses.genuine hc) (by
      rw [Cursor.length_lexemes]
      exact Nat.lt_succ_self _)).mono fun ps c' h => ⟨h.1.trans hpasses.suffix, fun p hp => ?_⟩)
    refine ⟨h.2.2.1 p hp, fun hone => ?_⟩
    rw [← Bool.not_eq_true]
    exact fun hempty => hclose (h.2.2.2 p hone hempty)

/-- **The head of a macro**, in a text. -/
theorem ensures_signature (hc : c.Genuine) : Ensures signature c fun sig c' =>
    sig.Legible ∧ c.Passes c' ∧
      Lexeme.kind? c.lexemes = some (if sig.byReference then .mark .ampersand else .ident) := by
  unfold signature
  refine Ensures.get_bind (Ensures.bind ?_)
  have hname : ∀ (byReference : Bool) (d : Cursor), d.lexemes <:+ c.lexemes →
      (Lexeme.kind? d.lexemes = some .ident →
        Lexeme.kind? c.lexemes = some (if byReference then .mark .ampersand else .ident)) →
      Ensures (do
        if (← get).isAt .ident then
          let n ← takeText
          let c' ← get
          let parenthesized := c'.isAt (.mark .openParen) && !c'.isSpaced 0
          let params ← if parenthesized then macroParamList else pure []
          return ⟨n, byReference, params, parenthesized, ⟨c.here.start, (← get).lastEnd⟩⟩
        else failExpected (.name .macroName) : Parser Signature) d fun sig c' =>
          sig.Legible ∧ c.Passes c' ∧
            Lexeme.kind? c.lexemes = some (if sig.byReference then .mark .ampersand else .ident) := by
    intro byReference d hsuffix hd
    refine Ensures.get_bind ?_
    rw [Cursor.isAt_eq]
    by_cases hk : Lexeme.kind? d.lexemes = some .ident
    · rw [if_pos (by simpa using hk)]
      obtain ⟨text, s, ls, hrow⟩ := Cursor.exists_of_kind? hk
      have hd' := hc.of_suffix hsuffix
      have hpasses := Cursor.passes_advance hrow
      have hpasses' : c.Passes d.advance :=
        ⟨hpasses.suffix.trans hsuffix, Nat.lt_of_lt_of_le hpasses.shorter hsuffix.length_le⟩
      have htext : IsName text := hd' ⟨.ident, text, s⟩ (by rw [hrow]; exact List.mem_cons_self ..)
      refine Ensures.bind ((ensures_takeText hrow).mono ?_)
      rintro _ _ ⟨rfl, rfl⟩
      refine Ensures.get_bind ?_
      cases hparen : (d.advance.isAt (.mark .openParen) && !d.advance.isSpaced 0) with
      | true =>
        rw [Bool.and_eq_true, Cursor.isAt_eq, beq_iff_eq] at hparen
        simp only [if_pos]
        have hlist := ensures_macroParamList (hpasses.genuine hd') hparen.1
        refine Ensures.bind (hlist.mono fun ps c' h => ?_)
        refine Ensures.get_bind (Ensures.pure ⟨⟨htext, h.2, by simp⟩, ⟨h.1.trans hpasses'.suffix, ?_⟩,
          hd hk⟩)
        exact Nat.lt_of_le_of_lt h.1.length_le hpasses'.shorter
      | false =>
        exact Ensures.pure (c := d.advance) ⟨⟨htext, by simp [MacroParam.Listed], fun _ => rfl⟩,
          hpasses', hd hk⟩
    · rw [if_neg (by simpa using hk)]
      exact Ensures.failExpected _ _
  refine Ensures.takeIf (fun hk => ?_) fun _ => hname false c (List.suffix_refl _) id
  obtain ⟨text, s, ls, hrow⟩ := Cursor.exists_of_kind? hk
  exact hname true _ (Cursor.passes_advance hrow).suffix fun _ => hk

end Parser

/-! ### Lists of heads -/

namespace Signature

/-- The heads, with a comma behind each but the last. -/
def rowAll : (s : Bool) → List Signature → List Lexeme
  | _, [] => []
  | s, [sig] => sig.row s
  | s, sig :: sigs => sig.row s ++ .ofChar ',' false :: rowAll true sigs

theorem rowAll_cons (s : Bool) (sig next : Signature) (sigs : List Signature) :
    rowAll s (sig :: next :: sigs) = sig.row s ++ .ofChar ',' false :: rowAll true (next :: sigs) := rfl

theorem prints_all {sigs : List Signature} (h : ∀ sig ∈ sigs, sig.Legible) (hne : sigs ≠ []) :
    Prints (", ".intercalate (sigs.map (·.render))) fun s => rowAll s sigs := by
  induction sigs with
  | nil => exact absurd rfl hne
  | cons sig sigs ih =>
    obtain ⟨hsig, hsigs⟩ := List.forall_mem_cons.1 h
    cases sigs with
    | nil => simpa [rowAll] using prints hsig
    | cons next sigs =>
      have htrails := (trails_mark (c := ',') rfl rfl).append
        ((ih hsigs (by simp)).blank (c := ' ') rfl)
      have htext : ", ".intercalate ((sig :: next :: sigs).map (·.render)) =
          sig.render ++ (String.ofList [','] ++
            (String.ofList [' '] ++ ", ".intercalate ((next :: sigs).map (·.render)))) := by
        have hcomma : ", " = String.ofList [','] ++ String.ofList [' '] := rfl
        rw [List.map_cons, List.map_cons, String.intercalate_cons_cons, hcomma]
        simp only [String.append_assoc]
      rw [htext]
      exact (prints hsig).trails htrails

theorem kind?_rowAll (s : Bool) (sig : Signature) (sigs : List Signature) (rs : List Lexeme) :
    Lexeme.kind? (rowAll s (sig :: sigs) ++ rs) =
      some (if sig.byReference then .mark .ampersand else .ident) := by
  obtain ⟨n, byReference, params, parenthesized, range⟩ := sig
  cases sigs <;> cases byReference <;> rfl

end Signature

namespace Parser

variable {c : Cursor}

theorem signatures_row {sig : Signature} {sigs : List Signature} {limit : Nat}
    (h : ∀ x ∈ sig :: sigs, x.Legible) (hlimit : sigs.length < limit) {s : Bool} {rs : List Lexeme}
    (hrs : IsSpaced rs) (hbrace : Lexeme.kind? rs = some (.mark .openBrace))
    (hc : c.lexemes = Signature.rowAll s (sig :: sigs) ++ rs) :
    ReadsTo (signatures limit) c (List.map (·.change .bare)) ((sig :: sigs).map (·.change .bare)) rs := by
  induction sigs generalizing c sig s limit with
  | nil =>
    cases limit with
    | zero => exact absurd hlimit (Nat.not_lt_zero _)
    | succ limit =>
      obtain ⟨x, c₁, hrun₁, hx, hc₁⟩ := signature_row (h sig (List.mem_cons_self ..)) hrs.isLoose hc
      refine ⟨[x], c₁, ?_, congrArg (fun x => [x]) hx, hc₁⟩
      rw [signatures, bind_of_ok hrun₁, bind_of_ok (takeIf_neg (by simp [hc₁, hbrace])), get_bind,
        Cursor.isAt_eq, Cursor.isAt_eq, hc₁, hbrace, if_neg (by simp)]
      rfl
  | cons next sigs ih =>
    cases limit with
    | zero => exact absurd hlimit (Nat.not_lt_zero _)
    | succ limit =>
      obtain ⟨hsig, hsigs⟩ := List.forall_mem_cons.1 h
      rw [Signature.rowAll_cons, List.append_assoc, List.cons_append] at hc
      obtain ⟨x, c₁, hrun₁, hx, hc₁⟩ := signature_row hsig (isLoose_cons _ (by simp [ofChar, single])) hc
      have hcomma : Lexeme.kind? c₁.lexemes = some (.mark .comma) := by rw [hc₁]; rfl
      have hc₂ := Cursor.lexemes_advance hc₁
      obtain ⟨xs, c₃, hrun₃, hxs, hc₃⟩ := ih hsigs (Nat.lt_of_succ_lt_succ hlimit) hc₂
      refine ⟨x :: xs, c₃, ?_, congrArg₂ List.cons hx hxs, hc₃⟩
      have hat : (c₁.advance.isAt .ident || c₁.advance.isAt (.mark .ampersand)) = true := by
        rw [Cursor.isAt_eq, Cursor.isAt_eq, hc₂, Signature.kind?_rowAll]
        cases next.byReference <;> rfl
      rw [signatures, bind_of_ok hrun₁, bind_of_ok (takeIf_pos hcomma), get_bind, if_pos hat,
        bind_of_ok hrun₃]
      rfl

/-- **The heads of a list of macros**, in a text. -/
theorem ensures_signatures (limit : Nat) {c : Cursor} (hc : c.Genuine)
    (hlimit : c.lexemes.length < limit) : Ensures (signatures limit) c fun sigs c' =>
      sigs ≠ [] ∧ (∀ sig ∈ sigs, sig.Legible) ∧ c'.lexemes <:+ c.lexemes := by
  induction limit generalizing c with
  | zero => exact absurd hlimit (Nat.not_lt_zero _)
  | succ limit ih =>
    refine Ensures.bind ((ensures_signature hc).mono fun sig c₁ h => ?_)
    obtain ⟨hsig, hpasses, -⟩ := h
    have hbehind : ∀ d : Cursor, d.lexemes <:+ c₁.lexemes → Ensures (do
        let c ← get
        if c.isAt .ident || c.isAt (.mark .ampersand) then return sig :: (← signatures limit)
        else return [sig] : Parser (List Signature)) d fun sigs c' =>
          sigs ≠ [] ∧ (∀ sig ∈ sigs, sig.Legible) ∧ c'.lexemes <:+ c.lexemes := by
      intro d hsuffix
      have hpasses' := hpasses.of_suffix hsuffix
      refine Ensures.get_bind ?_
      split
      · refine Ensures.bind ((ih (hpasses'.genuine hc) ?_).mono fun sigs c' h => Ensures.pure ?_)
        · have := hpasses'.shorter
          omega
        · exact ⟨by simp, List.forall_mem_cons.2 ⟨hsig, h.2.1⟩, h.2.2.trans hpasses'.suffix⟩
      · exact Ensures.pure ⟨by simp, List.forall_mem_singleton.2 hsig, hpasses'.suffix⟩
    refine Ensures.bind (Ensures.takeIf (fun hcomma => ?_) fun _ => hbehind c₁ (List.suffix_refl _))
    obtain ⟨text, s, ls, hrow⟩ := Cursor.exists_of_kind? hcomma
    exact hbehind _ (Cursor.passes_advance hrow).suffix

end Parser

end ControlFile
