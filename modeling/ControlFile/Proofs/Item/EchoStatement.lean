import ControlFile.Proofs.Item.Echo

/-!
# Statements are read back

Declarations, the statements of a site, and what starts with an identifier.
-/

namespace ControlFile

open Lexer Lexeme

theorem IsNameOrMark.prints {n : String} (h : IsNameOrMark n) : Prints n fun s => [nameLexeme s n] where
  spells := h.writes.spells
  read s := List.forall_mem_singleton.2 (isRead_nameLexeme s n)
  head _ := ⟨_, _, rfl, rfl⟩

/-- A name with its mark, which touches it. -/
theorem IsNameOrMark.prints_marked {n : String} (h : IsNameOrMark n) (mark : Refinement) :
    Prints (mark.symbol ++ n) fun s => mark.row s ++ [nameLexeme (mark == .plain && s) n] := by
  cases mark with
  | plain => simpa [Refinement.symbol, Refinement.row] using h.prints
  | refined => exact h.prints.afterMark (c := '@') rfl
  | unrefined => exact h.prints.afterMark (c := '!') rfl

namespace Parser

variable {v : Vocabulary} {levels : Nat} {scope : Scope} {c : Cursor}

/-! ### Names -/

theorem ensures_name (hc : c.Genuine) (role : NameRole) : Ensures (name role) c fun n c' =>
    c' = c.advance ∧ IsNameOrMark n ∧ ∃ s ls, c.lexemes = nameLexeme s n :: ls := by
  unfold name
  refine Ensures.get_bind ?_
  split
  · rename_i h
    rw [Cursor.isAt_eq, Cursor.isAt_eq, Bool.or_eq_true, beq_iff_eq, beq_iff_eq] at h
    rcases h with h | h
    · obtain ⟨text, s, ls, hrow⟩ := Cursor.exists_of_kind? h
      have hname : IsName text := hc ⟨.ident, text, s⟩ (by rw [hrow]; exact List.mem_cons_self ..)
      refine (ensures_takeText hrow).mono ?_
      rintro n c' ⟨rfl, rfl⟩
      exact ⟨rfl, .inr hname, s, ls, by rw [hrow, hname.nameLexeme_eq]⟩
    · obtain ⟨text, s, ls, hrow⟩ := Cursor.exists_of_kind? h
      have hmark := (hc ⟨_, text, s⟩ (by rw [hrow]; exact List.mem_cons_self ..)).eq_unique
      refine (ensures_takeText hrow).mono ?_
      rintro n c' ⟨rfl, rfl⟩
      exact ⟨rfl, .inl hmark, s, ls, by rw [hrow]; simp only at hmark; rw [hmark]; rfl⟩
  · exact Ensures.failExpected _ _

theorem kind_nameLexeme (s : Bool) (n : String) :
    (nameLexeme s n).kind = .ident ∨ (nameLexeme s n).kind = .directive .unique := by
  unfold nameLexeme
  split
  · exact .inr rfl
  · exact .inl rfl

theorem nameLexeme_ne_mark (s : Bool) (n : String) (m : Mark) : (nameLexeme s n).kind ≠ .mark m := by
  rcases kind_nameLexeme s n with h | h <;> simp [h]

theorem name_row {n : String} {s : Bool} {ls : List Lexeme} (hc : c.lexemes = nameLexeme s n :: ls)
    (role : NameRole) : name role c = .ok n c.advance := by
  have hat : (c.isAt .ident || c.isAt (.directive .unique)) = true := by
    rw [Cursor.isAt_eq, Cursor.isAt_eq, hc, kind?_cons, Bool.or_eq_true, beq_iff_eq, beq_iff_eq]
    exact (kind_nameLexeme s n).imp (congrArg some) (congrArg some)
  rw [name, get_bind, if_pos hat, takeText_run hc]
  rfl

/-! ### Expressions and equations -/

/-- An expression between items. -/
theorem echoes_expression (hc : c.FromText) : Echoes .expr (expression v levels false) c := by
  refine (ensures_expression hc.genuine levels).mono fun e c' h => ?_
  obtain ⟨hparsed, hnesting, hstop⟩ := h
  refine ⟨fun s => e.row s, ⟨hparsed.passes, e.prints hparsed.grammatical, fun s rs hrs =>
    hparsed.start s rs hrs.spaced.isLoose hrs.alike.startsAssign⟩, ?_⟩
  intro s rs d hrs _ hd
  exact expression_row hparsed.grammatical hnesting (hrs.ends hstop) hd

theorem startsAssign_row_equation (e : Equation) (s : Bool) (rs : List Lexeme) :
    kind? (e.row s ++ rs) = some (.assign e.op) := by
  obtain ⟨op, body, uncertainty⟩ := e
  rfl

theorem echoes_equation (hc : c.FromText) {op : AssignOp}
    (hk : Lexeme.kind? c.lexemes = some (.assign op)) :
    Ensures (equation (expression v levels true) op) c fun e c' => e.op = op ∧
      Echo Alike e.render (fun s => e.row s) c c' ∧
      ReadsBack .equation (equation (expression v levels true) op) e (fun s => e.row s) c' := by
  refine (ensures_equation (soundInner_expression v levels) hc.genuine hk).mono fun e c' h => ?_
  obtain ⟨hgrammatical, hnesting, rfl, hpasses, hcolon⟩ := h
  refine ⟨rfl, ⟨hpasses, e.prints hgrammatical, fun s rs _ => .of_eq ?_⟩, ?_⟩
  · obtain ⟨text, t, ls, hrow⟩ := Cursor.exists_of_kind? hk
    obtain ⟨op, body, uncertainty⟩ := e
    rw [hrow, Equation.row, List.cons_append, lead_of_kind _ rfl (by simp) (by simp),
      lead_of_kind _ rfl (by simp) (by simp)]
  · intro s rs d hrs _ hd
    refine equation_expression_row hgrammatical hnesting (fun hu => ?_) hd
    rw [Ne, ← hrs.alike.kind?_iff rfl (by simp) rfl]
    exact hcolon hu

/-! ### Places for values -/

theorem kind?_row_literal (value : Literal) (s : Bool) (rs : List Lexeme) :
    ∃ kind, Lexeme.kind? (value.row s ++ rs) = some kind ∧
      (kind.isLiteral = true ∨ kind = .operator .sub) := by
  unfold Literal.row withMinus
  split
  · exact ⟨_, rfl, .inr rfl⟩
  · exact ⟨_, rfl, .inl value.kind_magnitude⟩

/-- A name and a literal, one of which is there, start with neither a mark nor an assignment. -/
theorem kind?_row_place {name : Option String} {value : Value} (hv : value.IsPlain)
    (hne : name.isSome = true ∨ value ≠ .absent) (s t : Bool) (rs : List Lexeme) :
    ∃ kind, Lexeme.kind? ((name.map (nameLexeme s)).toList ++ value.row t ++ rs) = some kind ∧
      (∀ m, kind ≠ .mark m) ∧ kind.isAssign = false := by
  cases name with
  | some n =>
    refine ⟨_, rfl, ?_⟩
    rcases kind_nameLexeme s n with h | h <;> simp [h, TokenKind.isAssign]
  | none =>
    cases value with
    | absent => simp at hne
    | literal value =>
      obtain ⟨kind, hkind, h⟩ := kind?_row_literal value t rs
      refine ⟨kind, hkind, ?_⟩
      rcases h with h | rfl
      · cases kind <;> simp_all [TokenKind.isLiteral, TokenKind.isAssign]
      · simp [TokenKind.isAssign]
    | equation e => exact hv.elim

/-- A place that has no equation in it starts with no assignment. -/
theorem startsAssign_row_parameter {p : Parameter} (hv : p.value.IsPlain)
    (hne : p.refinement ≠ .plain ∨ p.name.isSome = true ∨ p.value ≠ .absent) (s : Bool)
    (rs : List Lexeme) : startsAssign (p.row s ++ rs) = false := by
  obtain ⟨refinement, name, value⟩ := p
  cases refinement with
  | plain =>
    obtain ⟨kind, hkind, -, hassign⟩ := kind?_row_place hv (hne.resolve_left (by simp))
      (s || false) (s || false || name.isSome) rs
    refine startsAssign_of_kind ?_ hassign
    exact hkind
  | _ => rfl

/-- No place starts with a parenthesis, or with any other assignment than that of an equation. -/
theorem valueSlot_fails {kind : TokenKind} (hk : Lexeme.kind? c.lexemes = some kind)
    (hkind : kind = .mark .openParen ∨ kind.isAssign = true ∧ kind ≠ .assign .set)
    (inner : Parser Expr) (fixed : Bool) {Q : Parameter → Cursor → Prop} :
    Ensures (valueSlot v inner scope fixed) c Q := by
  obtain ⟨text, s, ls, hrow⟩ := Cursor.exists_of_kind? hk
  have hset : c.isAt (.assign .set) = false := by
    rw [Cursor.isAt_eq, hk, beq_eq_false_iff_ne, Ne, Option.some.injEq]
    rcases hkind with rfl | h
    · simp
    · exact h.2
  have hliteral : kind.isLiteral = false ∧ kind ≠ .operator .sub ∧ kind ≠ .ident ∧
      kind ≠ .directive .unique ∧ kind ≠ .mark .atSign ∧ kind ≠ .mark .bang := by
    rcases hkind with rfl | h
    · simp [TokenKind.isLiteral]
    · cases kind <;> simp_all [TokenKind.isAssign, TokenKind.isLiteral]
  have hempty : c.lexemes = (Parameter.mk .plain none .absent).row false ++ c.lexemes := rfl
  have hvalue : EndsValue c.lexemes :=
    ⟨by rw [hrow]; exact startsMinusNumber_cons_of_ne hliteral.2.1, by rw [hk]; exact hliteral.1⟩
  have hname : startsParameterName v c.lexemes = false := by
    rw [hrow]
    simp [startsParameterName, hliteral]
  unfold valueSlot
  refine Ensures.get_bind ?_
  rw [hset, if_neg Bool.false_ne_true]
  have hplain : ReadsTo refinement c id .plain c.lexemes :=
    refinement_row (r := .plain) (s := false) rfl fun _ => by rw [hk]; simp [hliteral]
  obtain ⟨r, c₁, hrun₁, hr, hc₁⟩ := hplain
  have hnone : ReadsTo (parameterName? v) c₁ id none c.lexemes :=
    parameterName?_row (s := false) trivial hc₁ fun _ => hname
  obtain ⟨n, c₂, hrun₂, hn, hc₂⟩ := hnone
  have habsent : ReadsTo literalValue c₂ id .absent c.lexemes :=
    literalValue_row (s := false) trivial hc₂ fun _ => hvalue
  obtain ⟨value, c₃, hrun₃, hv, hc₃⟩ := habsent
  cases hr
  cases hn
  cases hv
  intro p c' hrun
  rw [bind_of_ok hrun₁, if_neg (by simp), bind_of_ok hrun₂, bind_of_ok hrun₃, if_neg (by
    simp [Value.isPresent])] at hrun
  cases hrun

/-- Places and signs are in equations only. -/
theorem unchanged_of_isPlain {p : Parameter} (h : p.value.IsPlain) : p.bare = p ∧ p.foldSigns = p := by
  obtain ⟨r, n, value⟩ := p
  cases value with
  | equation e => exact h.elim
  | _ => exact ⟨rfl, rfl⟩

/-- A place without an equation. -/
structure IsPlace (v : Vocabulary) (p : Parameter) (c c' : Cursor) : Prop where
  name : IsParameterName v p.name
  plain : p.value.IsPlain
  filled : p.refinement ≠ .plain ∨ p.name.isSome = true ∨ p.value ≠ .absent
  passes : c.Passes c'
  ends : EndsPlace v p.name p.value c'.lexemes

theorem IsPlace.prints {p : Parameter} {c' : Cursor} (h : IsPlace v p c c') :
    Prints p.render fun s => p.row s := by
  refine Parameter.prints (Parameter.spells_of (fun n hn => ?_) h.plain.spells h.filled) h.filled
  have := h.name
  rw [hn] at this
  exact this.isNameOrMark

/-- The mark, the name and the literal of a place are read, each at its turn. -/
theorem IsPlace.reads {p : Parameter} {c' d : Cursor} {s : Bool} {rs : List Lexeme}
    (h : IsPlace v p c c') (hrs : Follows c'.lexemes rs)
    (hopen : p.isOpen = true → startsMinusNumber rs = false) (hd : d.lexemes = p.row s ++ rs) :
    Gives refinement d fun r d₁ => r = p.refinement ∧
      Gives (parameterName? v) d₁ fun n d₂ => n = p.name ∧ ReadsTo literalValue d₂ id p.value rs := by
  obtain ⟨refinement, name, value⟩ := p
  rw [Parameter.row, List.append_assoc, List.append_assoc] at hd
  have hend : EndsPlace v name value rs := hrs.endsPlace (fun hv => hopen (by
    rw [Parameter.isOpen, show Value.isPresent _ = false by rw [hv]; rfl]; rfl)) h.ends
  obtain ⟨r, d₁, hrun, hr, hd₁⟩ := refinement_row hd fun hplain => by
    obtain ⟨kind, hkind, hmark, -⟩ := kind?_row_place h.plain (h.filled.resolve_left (by simp [hplain]))
      (s || refinement != .plain) (s || refinement != .plain || name.isSome) rs
    rw [List.append_assoc] at hkind
    rw [hkind]
    simp [hmark]
  rw [← List.append_assoc] at hd₁
  exact ⟨r, d₁, hrun, hr, place_row h.name h.plain hd₁ hend⟩

/-- What a place for a value starts with. -/
theorem alikeBehind_valueSlot {inner : Parser Expr} {fixed : Bool} {p : Parameter} {c' : Cursor}
    (h : valueSlot v inner scope fixed c = .ok p c') {out : List Lexeme}
    (hout : startsAssign out = decide (Lexeme.kind? c.lexemes = some (.assign .set))) :
    AlikeBehind c.lexemes out := by
  have hbad : ∀ kind, Lexeme.kind? c.lexemes = some kind →
      ¬(kind = .mark .openParen ∨ kind.isAssign = true ∧ kind ≠ .assign .set) := fun kind hk hkind =>
    valueSlot_fails (Q := fun _ _ => False) hk hkind _ _ p c' h
  refine ⟨fun hk => hbad _ hk (.inl rfl), ?_⟩
  rw [hout, startsAssign]
  cases hk : Lexeme.kind? c.lexemes with
  | none => simp
  | some kind =>
    have := hbad kind hk
    by_cases hset : kind = .assign .set
    · simp [hset, TokenKind.isAssign]
    · simp_all

/-- What may stand in a place for a value. -/
def Fits (scope : Scope) (fixed : Bool) (p : Parameter) : Prop :=
  (fixed && p.refinement != .plain) = false ∧
    (p.value.isPresent || p.refinement == .refined && p.name.isNone ||
      p.name.isSome && scope.inMacro) = true

theorem Fits.filled {fixed : Bool} {p : Parameter} (h : Fits scope fixed p) :
    p.refinement ≠ .plain ∨ p.name.isSome = true ∨ p.value ≠ .absent := by
  obtain ⟨refinement, name, value⟩ := p
  cases value with
  | absent => cases name <;> cases refinement <;> simp_all [Fits, Value.isPresent]
  | _ => simp

/-- A place where no equation starts. -/
theorem ensures_valueSlot (hc : c.FromText) {inner : Parser Expr} {fixed : Bool}
    (hset : Lexeme.kind? c.lexemes ≠ some (.assign .set)) :
    Ensures (valueSlot v inner scope fixed) c fun p c' =>
      IsPlace v p c c' ∧ Fits scope fixed p := by
  unfold valueSlot
  refine Ensures.get_bind ?_
  rw [Cursor.isAt_eq, if_neg (by simpa using hset)]
  refine Ensures.bind (ensures_refinement.mono fun r c₁ hr => ?_)
  have hsuffix := suffix_of_refinement (fun h => (hr.1 h).1) hr.2
  split
  · rintro _ _ ⟨⟩
  · rename_i hfixed
    refine ensures_place (hc.of_suffix hsuffix).genuine
      fun name value c' hname hvalue hsuffix' hpasses hend => ?_
    split
    · rename_i hcond
      have hfits : Fits scope fixed ⟨r, name, value⟩ := ⟨by simpa using hfixed, hcond⟩
      refine Ensures.pure ⟨⟨hname, hvalue, hfits.filled, ?_, hend⟩, hfits⟩
      by_cases hplain : r = .plain
      · obtain rfl := (hr.1 hplain).1
        exact hpasses (hfits.filled.resolve_left (by simpa using hplain))
      · have := hr.2 hplain
        exact ⟨hsuffix'.trans hsuffix, Nat.lt_of_le_of_lt hsuffix'.length_le this.shorter⟩
    · exact Ensures.failExpected _ _

theorem valueSlot_row {inner : Parser Expr} {fixed : Bool} {p : Parameter} {c' : Cursor}
    (hp : IsPlace v p c c') (hfits : Fits scope fixed p) :
    ReadsBack .parameter (valueSlot v inner scope fixed) p (fun s => p.row s) c' := by
  intro s rs d hrs hopen hd
  obtain ⟨r, d₁, hrun₁, rfl, n, d₂, hrun₂, rfl, value, d₃, hrun₃, hvalue, hd₃⟩ :=
    hp.reads hrs hopen hd
  cases hvalue
  have hset : Lexeme.kind? d.lexemes ≠ some (.assign .set) := by
    have hno := startsAssign_row_parameter hp.plain hp.filled s rs
    rw [hd]
    intro h
    rw [startsAssign, h] at hno
    exact Bool.noConfusion hno
  refine ⟨p, d₃, ?_, ?_, hd₃⟩
  · unfold valueSlot
    rw [get_bind, Cursor.isAt_eq, if_neg (by simpa using hset), bind_of_ok hrun₁,
      if_neg (by simpa using hfits.1), bind_of_ok hrun₂, bind_of_ok hrun₃, if_pos hfits.2]
    cases p
    rfl
  · change p.bare = p.foldSigns.bare
    rw [(unchanged_of_isPlain hp.plain).2]

/-- **A place for a value**, with an equation or without. -/
theorem echoes_valueSlot (hc : c.FromText) (fixed : Bool) :
    Echoes .parameter (valueSlot v (expression v levels true) scope fixed) c := by
  intro p c' hrun
  have hstart := fun out => @alikeBehind_valueSlot _ _ _ _ _ _ _ hrun out
  by_cases hset : Lexeme.kind? c.lexemes = some (.assign .set)
  · unfold valueSlot at hrun
    rw [get_bind, Cursor.isAt_eq, if_pos (by simpa using hset)] at hrun
    obtain ⟨e, c₁, he, hrun⟩ := ok_of_bind hrun
    cases hrun
    obtain ⟨hop, hecho, hreads⟩ := echoes_equation hc hset e c' he
    have htext : Writing.parameter.text (.ofEquation e) = e.render := by
      simp [Writing.parameter, Parameter.ofEquation, Parameter.render, Refinement.symbol,
        Value.separator, Value.render]
    refine ⟨fun s => e.row s, ⟨hecho.passes, htext ▸ hecho.prints, fun s rs _ => hstart _ ?_⟩, ?_⟩
    · rw [startsAssign, startsAssign_row_equation]
      simp [hset, TokenKind.isAssign]
    · intro s rs d hrs _ hd
      obtain ⟨b, d', hrun', hb, hd'⟩ := hreads s rs d hrs (by simp [Writing.equation]) hd
      refine ⟨.ofEquation b, d', ?_, congrArg (fun e => Parameter.mk .plain none (.equation e)) hb, hd'⟩
      unfold valueSlot
      rw [get_bind, Cursor.isAt_eq, hd, startsAssign_row_equation, hop, if_pos (by simp),
        bind_of_ok hrun']
      rfl
  · obtain ⟨hp, hfits⟩ := ensures_valueSlot hc hset p c' hrun
    refine ⟨fun s => p.row s, ⟨hp.passes, hp.prints, fun s rs _ => hstart _ ?_⟩,
      valueSlot_row hp hfits⟩
    rw [startsAssign_row_parameter hp.plain hp.filled]
    simpa using hset

/-! ### Words with a meaning of their own -/

/-- Tokens that start something and show nothing but their kind. -/
def StartsAlone (kind : TokenKind) : Prop :=
  kind.isNumber = false ∧ kind ≠ .ident ∧ kind ≠ .operator .sub ∧ kind.isTrivia = false ∧
    kind ≠ .invalid

theorem StartsAlone.lead_eq {kind : TokenKind} (h : StartsAlone kind) {ls : List Lexeme}
    (hk : Lexeme.kind? ls = some kind) : lead ls = .other (leading kind) := by
  match ls with
  | [] => cases hk
  | l :: ls =>
    rw [kind?_cons, Option.some.injEq] at hk
    subst hk
    exact lead_of_kind _ h.1 h.2.1 h.2.2.1 l.text l.spaced ls

/-- **A token, and what is behind it.** -/
theorem echo_behindToken {kind kind' : TokenKind} {word word' text : String}
    {row : Bool → List Lexeme} {s : Bool} {ls : List Lexeme} {c' : Cursor} (hword : LexesAs kind word)
    (hkind : StartsAlone kind) (hkind' : StartsAlone kind') (hlead : leading kind' = leading kind)
    (hrow : c.lexemes = ⟨kind', word', s⟩ :: ls) (hsuffix : c'.lexemes <:+ c.advance.lexemes)
    (h : Prints text row) :
    Echo Alike (word ++ " " ++ text) (fun s => ⟨kind, word, s⟩ :: row true) c c' where
  passes := (Cursor.passes_advance hrow).of_suffix hsuffix
  prints := (hword.prints hkind.2.2.2.1 hkind.2.2.2.2).spaced h
  start s rs _ := .of_eq (by
    rw [hrow, List.cons_append, hkind'.lead_eq (kind?_cons _ ls), hkind.lead_eq (kind?_cons _ _), hlead])

theorem lexesAs_keyword (k : Keyword) : LexesAs (.keyword k) k.word := by
  cases k <;> exact ⟨_, _, rfl, rfl⟩

theorem startsAlone_keyword (k : Keyword) : StartsAlone (.keyword k) := by
  simp [StartsAlone, TokenKind.isNumber, TokenKind.isTrivia]

/-! ### Declarations -/

/-- The value of a declaration. -/
def declaredValue (expr : Parser Expr) : Parser Value := do
  if (← get).isAt (.assign .set) then return .equation (← equation expr .set)
  else literalValue

theorem declaration_eq (expr : Parser Expr) (scope : Scope) (kind : VariableScope) :
    declaration expr scope kind = (do
      advance
      let mark ← refinement
      let n ← name .variable
      let value ← declaredValue expr
      if value.isPresent || scope.inMacro then return .declaration kind ⟨mark, some n, value⟩
      else failExpected (.valueOf n)) := by
  unfold declaration declaredValue
  simp only [bind_assoc]
  congr; funext _; congr; funext _; congr; funext _; congr; funext c
  split <;> simp

/-- A value behind a name. -/
theorem ensures_declaredValue (hc : c.FromText) :
    Ensures (declaredValue (expression v levels true)) c fun value c' => c'.lexemes <:+ c.lexemes ∧
      (value = .absent ∨ Spells value.render.toList value.row) ∧
      ∀ s rs d, Follows c'.lexemes rs → (value.isPresent = false → startsMinusNumber rs = false) →
        d.lexemes = value.row s ++ rs →
        ReadsTo (declaredValue (expression v levels true)) d Value.bare value.foldSigns.bare rs := by
  intro value c' hrun
  unfold declaredValue at hrun
  rw [get_bind, Cursor.isAt_eq] at hrun
  by_cases hset : Lexeme.kind? c.lexemes = some (.assign .set)
  · rw [if_pos (by simpa using hset)] at hrun
    obtain ⟨e, c₁, he, hrun⟩ := ok_of_bind hrun
    cases hrun
    obtain ⟨hop, hecho, hreads⟩ := echoes_equation hc hset e c' he
    refine ⟨hecho.passes.suffix, .inr hecho.prints.spells, fun s rs d hrs _ hd => ?_⟩
    obtain ⟨b, d', hrun', hb, hd'⟩ := hreads s rs d hrs (by simp [Writing.equation]) hd
    refine ⟨.equation b, d', ?_, congrArg Value.equation hb, hd'⟩
    unfold declaredValue
    rw [get_bind, Cursor.isAt_eq, hd, show Value.row s (.equation e) = e.row s from rfl,
      startsAssign_row_equation, hop, if_pos (by simp), bind_of_ok hrun']
    rfl
  · rw [if_neg (by simpa using hset)] at hrun
    obtain ⟨hplain, hsuffix, -, hend⟩ := ensures_literalValue hc.genuine value c' hrun
    refine ⟨hsuffix, hplain.spells, fun s rs d hrs hopen hd => ?_⟩
    have hset' : Lexeme.kind? d.lexemes ≠ some (.assign .set) := by
      rw [hd]
      cases value with
      | absent =>
        rw [Value.row, List.nil_append, Ne, ← hrs.alike.kind?_iff rfl (by simp) rfl]
        rwa [(hend rfl).1]
      | literal value =>
        obtain ⟨kind, hkind, h⟩ := kind?_row_literal value s rs
        rw [Value.row, hkind]
        rcases h with h | rfl
        · rintro ⟨⟩
          exact Bool.noConfusion h
        · simp
      | equation e => exact hplain.elim
    have hends : value = .absent → EndsValue rs := fun habsent => by
      refine hrs.alike.endsValue (hopen (by rw [habsent]; rfl)) ?_
      rw [(hend habsent).1]
      exact (hend habsent).2
    obtain ⟨b, d', hrun', hb, hd'⟩ := literalValue_row hplain hd hends
    refine ⟨b, d', ?_, ?_, hd'⟩
    · unfold declaredValue
      rw [get_bind, Cursor.isAt_eq, if_neg (by simpa using hset')]
      exact hrun'
    · rw [show b = value from hb]
      cases value with
      | equation e => exact hplain.elim
      | _ => rfl

/-- **A declaration of a variable.** -/
theorem echoes_declaration (hc : c.FromText) {kind : VariableScope} {keyword : Keyword}
    (hword : kind.word = keyword.word) (hk : Lexeme.kind? c.lexemes = some (.keyword keyword)) :
    Echoes .kind (declaration (expression v levels true) scope kind) c := by
  obtain ⟨text, s, ls, hrow⟩ := Cursor.exists_of_kind? hk
  have hc₁ := hc.of_passes (Cursor.passes_advance hrow)
  intro i c' hrun
  rw [declaration_eq] at hrun
  obtain ⟨⟨⟩, c₁, hadvance, hrun⟩ := ok_of_bind hrun
  cases hadvance
  obtain ⟨mark, c₂, hmark, hrun⟩ := ok_of_bind hrun
  have hrefinement := ensures_refinement mark c₂ hmark
  have hsuffix := suffix_of_refinement (fun h => (hrefinement.1 h).1) hrefinement.2
  have hc₂ := hc₁.of_suffix hsuffix
  obtain ⟨n, c₃, hn, hrun⟩ := ok_of_bind hrun
  obtain ⟨rfl, hname, s', ls', hrow'⟩ := ensures_name hc₂.genuine _ n c₃ hn
  have hpasses := Cursor.passes_advance hrow'
  obtain ⟨value, c₄, hvalue, hrun⟩ := ok_of_bind hrun
  obtain ⟨hsuffix', hspells, hreads⟩ := ensures_declaredValue (hc₂.of_passes hpasses) value c₄ hvalue
  split at hrun
  · rename_i hcond
    cases hrun
    have hprints : Prints (Parameter.mk mark (some n) value).render fun s =>
        (Parameter.mk mark (some n) value).row s :=
      Parameter.prints (Parameter.spells_of (by rintro _ ⟨⟩; exact hname) hspells (.inr (.inl rfl)))
        (.inr (.inl rfl))
    refine ⟨_, hword ▸ echo_behindToken (lexesAs_keyword keyword) (startsAlone_keyword keyword)
      (startsAlone_keyword keyword) rfl hrow (hsuffix'.trans (hpasses.suffix.trans hsuffix)) hprints, ?_⟩
    intro t rs d hrs hopen hd
    rw [List.cons_append, Parameter.row, List.append_assoc, List.append_assoc] at hd
    rw [Option.map_some, Option.toList_some, List.singleton_append] at hd
    obtain ⟨r, d₁, hrun₁, hr, hd₁⟩ := refinement_row (Cursor.lexemes_advance hd) fun _ => by
      simp [nameLexeme_ne_mark]
    cases hr
    have hrun₂ := name_row hd₁ .variable
    obtain ⟨b, d₂, hrun₃, hb, hd₂⟩ := hreads _ rs d₁.advance hrs (fun h => hopen (by
      change Parameter.isOpen _ = true
      rw [Parameter.isOpen, h]
      rfl)) (Cursor.lexemes_advance hd₁)
    refine ⟨.declaration kind ⟨r, some n, b⟩, d₂, ?_,
      congrArg (fun value => ItemKind.declaration kind ⟨r, some n, value⟩) hb, hd₂⟩
    have hpresent : b.isPresent = value.isPresent := by
      cases b <;> cases value <;> first | rfl | cases hb
    rw [declaration_eq, bind_of_ok (advance_run d), bind_of_ok hrun₁, bind_of_ok hrun₂,
      bind_of_ok hrun₃, hpresent, if_pos hcond]
    rfl
  · cases hrun

/-- **An equation for a declared variable.** -/
theorem echoes_existing (hc : c.FromText)
    (hk : Lexeme.kind? c.lexemes = some (.keyword .existingPrm)) :
    Echoes .kind (existing (expression v levels true)) c := by
  obtain ⟨text, s, ls, hrow⟩ := Cursor.exists_of_kind? hk
  have hc₁ := hc.of_passes (Cursor.passes_advance hrow)
  intro i c' hrun
  unfold existing at hrun
  rw [bind_of_ok (advance_run c)] at hrun
  obtain ⟨mark, c₂, hmark, hrun⟩ := ok_of_bind hrun
  have hrefinement := ensures_refinement mark c₂ hmark
  have hsuffix := suffix_of_refinement (fun h => (hrefinement.1 h).1) hrefinement.2
  have hc₂ := hc₁.of_suffix hsuffix
  obtain ⟨n, c₃, hn, hrun⟩ := ok_of_bind hrun
  obtain ⟨rfl, hname, s', ls', hrow'⟩ := ensures_name hc₂.genuine _ n c₃ hn
  have hpasses := Cursor.passes_advance hrow'
  rw [get_bind] at hrun
  by_cases hassign : ∃ op, c₂.advance.kind? = some (.assign op)
  · obtain ⟨op, hop⟩ := hassign
    rw [hop] at hrun
    obtain ⟨e, c₄, he, hrun⟩ := ok_of_bind hrun
    cases hrun
    rw [Cursor.kind?_eq] at hop
    obtain ⟨hop', hecho, hreads⟩ := echoes_equation (hc₂.of_passes hpasses) hop e c' he
    have htext : (ItemKind.existing ⟨mark, n, e⟩).render =
        Keyword.existingPrm.word ++ " " ++ (mark.symbol ++ n ++ " " ++ e.render) := by
      simp [ItemKind.render, Assignment.render, Keyword.word, String.append_assoc]
    refine ⟨_, htext ▸ echo_behindToken (lexesAs_keyword .existingPrm)
      (startsAlone_keyword .existingPrm) (startsAlone_keyword .existingPrm) rfl hrow
      (hecho.passes.suffix.trans (hpasses.suffix.trans hsuffix))
      ((hname.prints_marked mark).spaced hecho.prints), ?_⟩
    intro t rs d hrs _ hd
    rw [List.cons_append, List.append_assoc, List.append_assoc, List.singleton_append] at hd
    obtain ⟨r, d₁, hrun₁, hr, hd₁⟩ := refinement_row (Cursor.lexemes_advance hd) fun _ => by
      simp [nameLexeme_ne_mark]
    cases hr
    have hd₁' := Cursor.lexemes_advance hd₁
    obtain ⟨b, d₂, hrun₂, hb, hd₂⟩ := hreads true rs d₁.advance hrs (by simp [Writing.equation]) hd₁'
    refine ⟨.existing ⟨r, n, b⟩, d₂, ?_, congrArg (fun e => ItemKind.existing ⟨r, n, e⟩) hb, hd₂⟩
    have hkind : d₁.advance.kind? = some (.assign op) := by
      rw [Cursor.kind?_eq, hd₁', startsAssign_row_equation, hop']
    unfold existing
    rw [bind_of_ok (advance_run d), bind_of_ok hrun₁, bind_of_ok (name_row hd₁ _), get_bind, hkind]
    dsimp only
    rw [bind_of_ok hrun₂]
    rfl
  · cases hkind : c₂.advance.kind? with
    | none =>
      rw [hkind] at hrun
      cases hrun
    | some kind =>
      rw [hkind] at hrun
      cases kind with
      | assign op => exact absurd ⟨op, hkind⟩ hassign
      | _ => cases hrun

/-! ### Marked places and equations -/

theorem refinement_atSign (hk : Lexeme.kind? c.lexemes = some (.mark .atSign)) :
    refinement c = .ok .refined c.advance := by
  rw [refinement, bind_of_ok (takeIf_pos hk)]
  rfl

theorem refinement_bang (hk : Lexeme.kind? c.lexemes = some (.mark .bang)) :
    refinement c = .ok .unrefined c.advance := by
  rw [refinement, bind_of_ok (takeIf_neg (by simp [hk])), if_neg Bool.false_ne_true,
    bind_of_ok (takeIf_pos hk)]
  rfl

/-- **A marked place that stands alone.** -/
theorem echoes_markedParameter (hc : c.FromText)
    (hk : Lexeme.kind? c.lexemes = some (.mark .atSign) ∨
      Lexeme.kind? c.lexemes = some (.mark .bang)) :
    Echoes .kind (do return .parameter (← markedParameter v)) c := by
  intro i c' hrun
  obtain ⟨p, c₁, hp, hrun⟩ := ok_of_bind hrun
  cases hrun
  obtain ⟨hmarked, hpasses, hend⟩ := ensures_markedParameter hc.genuine hk p c' hp
  have hprints : Prints p.render fun s => p.row s :=
    Parameter.prints hmarked.spells (.inl hmarked.1)
  have hkind : ∀ s rs, Lexeme.kind? c.lexemes = Lexeme.kind? (p.row s ++ rs) := by
    intro s rs
    unfold markedParameter at hp
    obtain ⟨r, c₁, hr, hp⟩ := ok_of_bind hp
    obtain ⟨n, c₂, hn, hp⟩ := ok_of_bind hp
    obtain ⟨value, c₃, hvalue, hp⟩ := ok_of_bind hp
    cases hp
    rcases hk with hk | hk
    · rw [refinement_atSign hk] at hr
      cases hr
      rw [hk]
      rfl
    · rw [refinement_bang hk] at hr
      cases hr
      rw [hk]
      rfl
  refine ⟨fun s => p.row s, ⟨hpasses, hprints, fun s rs _ => .of_eq ?_⟩, ?_⟩
  · obtain ⟨kind, hkind', halone⟩ : ∃ kind, Lexeme.kind? c.lexemes = some kind ∧ StartsAlone kind := by
      rcases hk with hk | hk <;>
        exact ⟨_, hk, by simp [StartsAlone, TokenKind.isNumber, TokenKind.isTrivia]⟩
    rw [halone.lead_eq hkind', halone.lead_eq (hkind s rs ▸ hkind')]
  · intro s rs d hrs hopen hd
    obtain ⟨b, d', hrun', rfl, hd'⟩ := markedParameter_row hmarked hd (hrs.endsPlace (fun habsent =>
      hopen (by
        change Parameter.isOpen p = true
        rw [Parameter.isOpen, habsent]
        rfl)) hend)
    refine ⟨.parameter b, d', by rw [bind_of_ok hrun']; rfl, ?_, hd'⟩
    exact congrArg (fun p => ItemKind.parameter (Parameter.bare p))
      (unchanged_of_isPlain hmarked.2.2).2.symm

/-- **An equation that stands alone.** -/
theorem echoes_equationItem (hc : c.FromText) {op : AssignOp}
    (hk : Lexeme.kind? c.lexemes = some (.assign op)) :
    Echoes .kind (do return .equation (← equation (expression v levels true) op)) c := by
  intro i c' hrun
  obtain ⟨e, c₁, he, hrun⟩ := ok_of_bind hrun
  cases hrun
  obtain ⟨-, hecho, hreads⟩ := echoes_equation hc hk e c' he
  refine ⟨fun s => e.row s, hecho, fun s rs d hrs _ hd => ?_⟩
  obtain ⟨b, d', hrun', hb, hd'⟩ := hreads s rs d hrs (by simp [Writing.equation]) hd
  exact ⟨.equation b, d', by rw [bind_of_ok hrun']; rfl, congrArg ItemKind.equation hb, hd'⟩

end Parser

end ControlFile
