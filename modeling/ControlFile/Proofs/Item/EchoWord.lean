import ControlFile.Proofs.Item.EchoSite

/-!
# Items that start with an identifier are read back

Such an item is an expression, a statement of a site, a word of the vocabulary or an assignment, and it
shows at its start which of them it is.
-/

namespace ControlFile

open Lexer Lexeme

namespace Lexeme

variable {src out : List Lexeme} {word : String} {call assigned s : Bool} {ls : List Lexeme}

theorem eq_of_lead_word (h : lead out = .word word call assigned) : ∃ s ls,
    out = ⟨.ident, word, s⟩ :: ls ∧ startsCall out = call ∧ startsAssign ls = assigned := by
  match out with
  | [] => cases h
  | ⟨kind, text, s⟩ :: ls =>
    have hne : lead (⟨kind, text, s⟩ :: ls) ≠ .number := by
      rw [h]
      exact Lead.noConfusion
    obtain ⟨-, ⟨hkind, hlead⟩ | hlead⟩ := lead_of_ne_number hne
    · rw [h] at hlead
      cases hlead
      cases hkind
      exact ⟨s, ls, rfl, rfl, rfl⟩
    · rw [h] at hlead
      cases hlead

/-- Where the text has a word, what has been written has the same. -/
theorem Alike.startsWord (h : Alike src out) (hsrc : src = ⟨.ident, word, s⟩ :: ls) : ∃ s' ls',
    out = ⟨.ident, word, s'⟩ :: ls' ∧ startsCall out = startsCall src ∧
      Lexeme.startsAssign ls' = Lexeme.startsAssign ls := by
  subst hsrc
  refine eq_of_lead_word ?_
  rcases h with h | ⟨h, -⟩
  · rw [← h, lead_ident]
  · rw [lead_ident] at h
    cases h

end Lexeme

namespace Parser

variable {v : Vocabulary} {levels : Nat} {scope : Scope} {c : Cursor} {word : String}

/-- What looks alike is read alike. -/
theorem Echoes.of_alike {α : Type} {w : Writing α} (hlike : w.like = Alike) {p q : Parser α}
    (h : Echoes w p c) (hq : ∀ d, Alike c.lexemes d.lexemes → q d = p d) : Echoes w q c := by
  intro a c' hrun
  rw [hq c (.of_eq rfl)] at hrun
  obtain ⟨row, hecho, hreads⟩ := h a c' hrun
  refine ⟨row, hecho, fun s rs d hrs hopen hd => ?_⟩
  have hstart := hecho.start s rs hrs
  rw [hlike, ← hd] at hstart
  obtain ⟨b, d', hrun', hb, hd'⟩ := hreads s rs d hrs hopen hd
  exact ⟨b, d', by rw [hq d hstart, hrun'], hb, hd'⟩

/-! ### Expressions -/

/-- **An expression that stands alone.** -/
theorem echoes_exprItem (hc : c.FromText) :
    Echoes .kind (do return .expr (← expression v levels false)) c := by
  intro i c' hrun
  obtain ⟨e, c₁, he, hrun⟩ := ok_of_bind hrun
  cases hrun
  obtain ⟨row, hecho, hreads⟩ := echoes_expression hc e c' he
  refine ⟨row, hecho, fun s rs d hrs _ hd => ?_⟩
  obtain ⟨b, d', hrun', hb, hd'⟩ := hreads s rs d hrs (by simp [Writing.expr]) hd
  exact ⟨.expr b, d', by rw [bind_of_ok hrun']; rfl, congrArg ItemKind.expr hb, hd'⟩

/-! ### Words and assignments -/

/-- A word of the vocabulary, with the equation behind it. -/
def keywordItem (expr : Parser Expr) (word : String) : Parser ItemKind := do
  advance
  if (← get).isAt (.assign .set) then return .keyword word (some (← equation expr .set))
  else return .keyword word none

/-- An equation for the variable `word`. -/
def assignmentItem (expr : Parser Expr) (word : String) (op : AssignOp) : Parser ItemKind := do
  advance
  return .assignment word (← equation expr op)

/-- What stands between a word and its equation touches neither. -/
theorem echo_wordEquation {e : Equation} {s : Bool} {ls : List Lexeme} {c' : Cursor}
    (hword : IsName word) (hrow : c.lexemes = ⟨.ident, word, s⟩ :: ls) {op : AssignOp}
    (hk : Lexeme.kind? c.advance.lexemes = some (.assign op))
    (h : Echo Alike e.render (fun s => e.row s) c.advance c') :
    Echo Alike (word ++ " " ++ e.render) (fun s => ⟨.ident, word, s⟩ :: e.row true) c c' :=
  echo_behindWord hword hrow ⟨h.passes, h.prints, fun s rs hrs => .of_alike (h.start s rs hrs) (by simp [hk])⟩

theorem echoes_keywordItem (hc : c.FromText) {s : Bool} {ls : List Lexeme}
    (hrow : c.lexemes = ⟨.ident, word, s⟩ :: ls) (hcall : startsCall c.lexemes = false) :
    Echoes .kind (keywordItem (expression v levels true) word) c := by
  have hname : IsName word := hc.genuine ⟨.ident, word, s⟩ (by rw [hrow]; exact List.mem_cons_self ..)
  have hpasses := Cursor.passes_advance hrow
  have hc₁ := hc.of_passes hpasses
  intro i c' hrun
  unfold keywordItem at hrun
  rw [bind_of_ok (advance_run c), get_bind, Cursor.isAt_eq] at hrun
  by_cases hset : Lexeme.kind? c.advance.lexemes = some (.assign .set)
  · rw [if_pos (by simpa using hset)] at hrun
    obtain ⟨e, c₁, he, hrun⟩ := ok_of_bind hrun
    cases hrun
    obtain ⟨hop, hecho, hreads⟩ := echoes_equation hc₁ hset e c' he
    have htext : (ItemKind.keyword word (some e)).render = word ++ " " ++ e.render := by
      simp [ItemKind.render, String.append_assoc]
    refine ⟨_, htext ▸ echo_wordEquation hname hrow hset hecho, fun t rs d hrs _ hd => ?_⟩
    rw [List.cons_append] at hd
    have hd₁ := Cursor.lexemes_advance hd
    obtain ⟨b, d', hrun', hb, hd'⟩ := hreads true rs d.advance hrs (by simp [Writing.equation]) hd₁
    refine ⟨.keyword word (some b), d', ?_, congrArg (fun e => ItemKind.keyword word (some e)) hb, hd'⟩
    unfold keywordItem
    rw [bind_of_ok (advance_run d), get_bind, Cursor.isAt_eq, hd₁, startsAssign_row_equation, hop,
      if_pos (by simp), bind_of_ok hrun']
    rfl
  · rw [if_neg (by simpa using hset)] at hrun
    cases hrun
    have hprints : Prints word fun s => [⟨.ident, word, s⟩] := LexesAs.prints hname rfl (by simp)
    refine ⟨fun s => [⟨.ident, word, s⟩], ⟨hpasses, ?_, fun t rs hrs => .of_eq ?_⟩, ?_⟩
    · simpa [Writing.kind, ItemKind.render] using hprints
    · rw [hrow] at hcall
      have hassign := hrs.alike.startsAssign
      rw [Cursor.lexemes_advance hrow] at hassign
      rw [hrow, List.singleton_append, lead_ident, lead_ident, hcall, hassign,
        startsCall_of_isSpaced hrs.spaced]
    · intro t rs d hrs _ hd
      have hd₁ : d.advance.lexemes = rs := Cursor.lexemes_advance hd
      refine ⟨.keyword word none, d.advance, ?_, rfl, hd₁⟩
      have hset' : Lexeme.kind? d.advance.lexemes ≠ some (.assign .set) := by
        rwa [hd₁, Ne, ← hrs.alike.kind?_iff rfl (by simp) rfl]
      unfold keywordItem
      rw [bind_of_ok (advance_run d), get_bind, Cursor.isAt_eq, if_neg (by simpa using hset')]
      rfl

/-! ### The branches -/

theorem wordItem_call (h : startsCall c.lexemes = true) : wordItem v levels scope word c =
    (do return .expr (← expression v levels false) : Parser ItemKind) c := by
  rw [wordItem, get_bind, Cursor.isAtCall_eq, if_pos h]

theorem wordItem_site (h : startsCall c.lexemes = false) {w : SiteWord}
    (hw : (if scope.body == .siteBody || scope.inMacro then SiteWord.ofWord? word else none) = some w) :
    wordItem v levels scope word c = siteStatement v (expression v levels true) scope w c := by
  rw [wordItem, get_bind, Cursor.isAtCall_eq, h, if_neg Bool.false_ne_true, hw]

theorem wordItem_keyword (h : startsCall c.lexemes = false)
    (hw : (if scope.body == .siteBody || scope.inMacro then SiteWord.ofWord? word else none) = none)
    (hv : v.contains word = true) :
    wordItem v levels scope word c = keywordItem (expression v levels true) word c := by
  rw [wordItem, get_bind, Cursor.isAtCall_eq, h, if_neg Bool.false_ne_true, hw]
  simp only [if_pos hv]
  rfl

theorem wordItem_assignment (h : startsCall c.lexemes = false)
    (hw : (if scope.body == .siteBody || scope.inMacro then SiteWord.ofWord? word else none) = none)
    (hv : v.contains word = false) {op : AssignOp}
    (hop : Lexeme.kind? c.advance.lexemes = some (.assign op)) :
    wordItem v levels scope word c = assignmentItem (expression v levels true) word op c := by
  have hnext : c.peekKind? 1 = some (.assign op) := by
    rw [← Cursor.kind?_advance, Cursor.kind?_eq, hop]
  rw [wordItem, get_bind, Cursor.isAtCall_eq, h, if_neg Bool.false_ne_true, hw]
  simp only [hv, if_neg Bool.false_ne_true, hnext]
  rfl

theorem wordItem_expr (h : startsCall c.lexemes = false)
    (hw : (if scope.body == .siteBody || scope.inMacro then SiteWord.ofWord? word else none) = none)
    (hv : v.contains word = false) (hop : startsAssign c.advance.lexemes = false) :
    wordItem v levels scope word c =
      (do return .expr (← expression v levels false) : Parser ItemKind) c := by
  have hnext : ∀ op, c.peekKind? 1 ≠ some (.assign op) := by
    intro op hk
    rw [← Cursor.kind?_advance, Cursor.kind?_eq] at hk
    rw [startsAssign, hk] at hop
    exact Bool.noConfusion hop
  rw [wordItem, get_bind, Cursor.isAtCall_eq, h, if_neg Bool.false_ne_true, hw]
  simp only [hv, if_neg Bool.false_ne_true]

/-- **An item that starts with an identifier.** -/
theorem echoes_wordItem (hc : c.FromText) {s : Bool} {ls : List Lexeme}
    (hrow : c.lexemes = ⟨.ident, word, s⟩ :: ls) : Echoes .kind (wordItem v levels scope word) c := by
  have halike : ∀ d : Cursor, Alike c.lexemes d.lexemes → startsCall d.lexemes = startsCall c.lexemes ∧
      startsAssign d.advance.lexemes = startsAssign c.advance.lexemes := by
    intro d hd
    obtain ⟨s', ls', hrow', hcall, hassign⟩ := hd.startsWord hrow
    exact ⟨hcall, by rw [Cursor.lexemes_advance hrow', Cursor.lexemes_advance hrow, hassign]⟩
  by_cases hcall : startsCall c.lexemes = true
  · exact (echoes_exprItem hc).of_alike rfl fun d hd => wordItem_call ((halike d hd).1.trans hcall)
  rw [Bool.not_eq_true] at hcall
  cases hw : (if scope.body == .siteBody || scope.inMacro then SiteWord.ofWord? word else none) with
  | some w =>
    have hword : w.word = word := word_of_ofWord? (by
      split at hw
      · exact hw
      · cases hw)
    exact (echoes_siteStatement hc (hword ▸ hrow)).of_alike rfl fun d hd =>
      wordItem_site ((halike d hd).1.trans hcall) hw
  | none =>
    cases hv : v.contains word with
    | true =>
      exact (echoes_keywordItem hc hrow hcall).of_alike rfl fun d hd =>
        wordItem_keyword ((halike d hd).1.trans hcall) hw hv
    | false =>
      by_cases hassign : startsAssign c.advance.lexemes = true
      · obtain ⟨op, hop⟩ : ∃ op, Lexeme.kind? c.advance.lexemes = some (.assign op) := by
          rw [startsAssign] at hassign
          cases hk : Lexeme.kind? c.advance.lexemes with
          | none => simp [hk] at hassign
          | some kind => cases kind <;> simp_all [TokenKind.isAssign]
        intro i c' hrun
        rw [wordItem_assignment hcall hw hv hop] at hrun
        obtain ⟨⟨⟩, c₁, hadvance, hrun⟩ := ok_of_bind hrun
        cases hadvance
        obtain ⟨e, c₂, he, hrun⟩ := ok_of_bind hrun
        cases hrun
        have hname : IsName word :=
          hc.genuine ⟨.ident, word, s⟩ (by rw [hrow]; exact List.mem_cons_self ..)
        obtain ⟨hop', hecho, hreads⟩ :=
          echoes_equation (hc.of_passes (Cursor.passes_advance hrow)) hop e c' he
        refine ⟨_, echo_wordEquation hname hrow hop hecho, fun t rs d hrs _ hd => ?_⟩
        rw [List.cons_append] at hd
        have hd₁ := Cursor.lexemes_advance hd
        obtain ⟨b, d', hrun', hb, hd'⟩ := hreads true rs d.advance hrs (by simp [Writing.equation]) hd₁
        refine ⟨.assignment word b, d', ?_, congrArg (ItemKind.assignment word) hb, hd'⟩
        rw [wordItem_assignment ?_ hw hv (by rw [hd₁, startsAssign_row_equation, hop'])]
        · exact bind_of_ok hrun'
        · rw [hd]
          obtain ⟨op, body, uncertainty⟩ := e
          simp [Equation.row, startsCall]
      · exact (echoes_exprItem hc).of_alike rfl fun d hd =>
          wordItem_expr ((halike d hd).1.trans hcall) hw hv
            ((halike d hd).2.trans (by simpa using hassign))

end Parser

end ControlFile
