import ControlFile.Proofs.Item.EchoChain
import ControlFile.Proofs.Item.EchoSignature

/-!
# Items are read back

Every item that is read without a report, with all items in it, can be written and is read again
(`ItemParser.echoes_item`).  The proof follows the levels of nesting that are left.
-/

namespace ControlFile

open Lexer Lexeme

namespace Parser

variable {c : Cursor}

/-! ### Heads of macros -/

/-- The head of a macro, or those of a list of macros. -/
def heads (isList : Bool) : Parser (List Signature) :=
  if isList then do signatures ((← get).rest.length + 1) else do return [← signature]

theorem ensures_heads (hc : c.Genuine) (isList : Bool) : Ensures (heads isList) c fun sigs c' =>
    (∃ sig rest, sigs = sig :: rest ∧ (isList = false → rest = [])) ∧
      (∀ sig ∈ sigs, sig.Legible) ∧ c'.lexemes <:+ c.lexemes := by
  cases isList with
  | false =>
    refine Ensures.bind ((ensures_signature hc).mono fun sig c' h => ?_)
    exact Ensures.pure ⟨⟨sig, [], rfl, fun _ => rfl⟩, List.forall_mem_singleton.2 h.1, h.2.1.suffix⟩
  | true =>
    refine Ensures.get_bind ((ensures_signatures _ hc ?_).mono fun sigs c' h => ?_)
    · rw [Cursor.length_lexemes]
      exact Nat.lt_succ_self _
    · obtain ⟨sig, rest, rfl⟩ := List.exists_cons_of_ne_nil h.1
      exact ⟨⟨sig, rest, rfl, by simp⟩, h.2⟩

theorem length_le_rowAll (s : Bool) (sigs : List Signature) :
    sigs.length ≤ (Signature.rowAll s sigs).length := by
  have hone : ∀ s (sig : Signature), 1 ≤ (sig.row s).length := by
    intro s sig
    simp only [Signature.row, List.length_append, List.length_cons]
    omega
  induction sigs generalizing s with
  | nil => exact Nat.zero_le _
  | cons sig sigs ih =>
    cases sigs with
    | nil => exact hone s sig
    | cons next sigs =>
      have hrest := ih true
      have hfirst := hone s sig
      simp only [Signature.rowAll_cons, List.length_append, List.length_cons] at hrest ⊢
      omega

theorem heads_row {isList : Bool} {sig : Signature} {sigs : List Signature}
    (hlist : isList = false → sigs = []) (h : ∀ x ∈ sig :: sigs, x.Legible) {s : Bool}
    {rs : List Lexeme} (hrs : IsSpaced rs) (hbrace : Lexeme.kind? rs = some (.mark .openBrace))
    (hc : c.lexemes = Signature.rowAll s (sig :: sigs) ++ rs) :
    ReadsTo (heads isList) c (List.map (·.change .bare)) ((sig :: sigs).map (·.change .bare)) rs := by
  cases isList with
  | false =>
    cases hlist rfl
    obtain ⟨x, c', hrun, hx, hc'⟩ := signature_row (h sig (List.mem_cons_self ..)) hrs.isLoose hc
    refine ⟨[x], c', ?_, congrArg (fun x => [x]) hx, hc'⟩
    change (do return [← signature] : Parser (List Signature)) c = _
    rw [bind_of_ok hrun]
    rfl
  | true =>
    have hlength : sigs.length < c.rest.length + 1 := by
      have hle := length_le_rowAll s (sig :: sigs)
      rw [← Cursor.length_lexemes, hc, List.length_append]
      rw [List.length_cons] at hle
      omega
    exact signatures_row h hlength hrs hbrace hc

end Parser

namespace ItemParser

variable {v : Vocabulary} {levels : Nat} {c c' : Cursor}

/-! ### Braces -/

section Braces

variable {body : StateM Reading (List Item)}

/-- **Items in braces.** -/
theorem echoes_braces (hbody : EchoesAll body) (hc : c.FromText)
    (hk : Lexeme.kind? c.lexemes = some (.mark .openBrace)) {is : List Item}
    (hrun : RunsAll body c.advance is c') (hclose : Lexeme.kind? c'.lexemes = some (.mark .closeBrace)) :
    ∃ ls, Echo Alike ("\x7b" ++ (Item.renderSpaced is ++ (" " ++ "\x7d")))
        (fun s => .ofChar '\x7b' s :: (ls ++ [.ofChar '\x7d' true])) c c'.advance ∧
      (Item.AllSeparate is → ∀ s rs (d : Cursor),
        d.lexemes = .ofChar '\x7b' s :: (ls ++ .ofChar '\x7d' true :: rs) → ∃ js d',
          RunsAll body d.advance js d' ∧ Item.bareAll js = Item.bareAll (Item.foldSignsAll is) ∧
            d'.lexemes = .ofChar '\x7d' true :: rs) := by
  obtain ⟨text, s, ms, hrow⟩ := Cursor.exists_of_kind? hk
  obtain ⟨text', s', ms', hrow'⟩ := Cursor.exists_of_kind? hclose
  have hpasses := Cursor.passes_advance hrow
  obtain ⟨ls, hall, hagain⟩ := hbody _ (hc.of_passes hpasses) is c' hrun
  refine ⟨ls, ⟨hpasses.of_suffix ((Cursor.passes_advance hrow').suffix.trans hall.suffix), ?_, ?_⟩, ?_⟩
  · exact (prints_mark (c := '\x7b') rfl).trails
      (hall.prints.trails.append ((prints_mark (c := '\x7d') rfl).blank (c := ' ') rfl))
  · intro t rs _
    refine .of_eq ?_
    rw [hrow, lead_of_kind (.mark .openBrace) rfl (by simp) (by simp)]
    exact (lead_of_kind (.mark .openBrace) rfl (by simp) (by simp) _ t _).symm
  · intro hsep t rs d hd
    refine hagain hsep d.advance _ ⟨.of_eq ?_, isSpaced_cons _ _ rs⟩ (fun _ => ?_) (Cursor.lexemes_advance hd)
    · rw [hrow', lead_of_kind (.mark .closeBrace) rfl (by simp) (by simp)]
      exact (lead_of_kind (.mark .closeBrace) rfl (by simp) (by simp) _ true rs).symm
    · exact startsMinusNumber_cons_of_ne (by simp [ofChar, single])

/-- The closing brace, which ends what is in braces without a report. -/
theorem runs_takeIf {kind : TokenKind} {closed : Bool} (h : Runs (takeIf kind) c closed c')
    (hclosed : closed = true) : Lexeme.kind? c.lexemes = some kind ∧ c' = c.advance := by
  subst hclosed
  exact Parser.Ensures.takeIf
    (Q := fun b d => b = true → Lexeme.kind? c.lexemes = some kind ∧ d = c.advance)
    (fun hk _ => ⟨hk, rfl⟩) (fun _ h => Bool.noConfusion h) true c' (runs_lift.1 h) rfl

theorem runs_closeBrace {s : Bool} {rs : List Lexeme} (h : c.lexemes = .ofChar '\x7d' s :: rs) :
    Runs (takeIf (.mark .closeBrace)) c true c.advance :=
  runs_lift.2 (Parser.takeIf_pos (by rw [h]; rfl))

/-- **A block.** -/
theorem echoesKind_block (hbody : EchoesAll body) (hc : c.FromText)
    (hk : Lexeme.kind? c.lexemes = some (.mark .openBrace)) :
    EchoesKind (do return some (← block body)) c := by
  intro o c' hrun
  obtain ⟨k, c₁, hblock, hrun⟩ := hrun.of_bind fun _ => .pure _
  cases hrun
  unfold block at hblock
  rw [runs_cursor_bind, runs_advance_bind] at hblock
  obtain ⟨is, c₁, his, hblock⟩ := hblock.of_bind fun _ => .bind (.lift _) fun _ =>
    .ite (.pure _) (.throw _)
  obtain ⟨closed, c₂, hclosed, hblock⟩ := hblock.of_bind fun _ => .ite (.pure _) (.throw _)
  cases closed with
  | false => cases hblock
  | true =>
    cases hblock
    obtain ⟨hclose, rfl⟩ := runs_takeIf hclosed rfl
    obtain ⟨ls, hecho, hagain⟩ := echoes_braces hbody hc hk (runs_liftAll.1 his) hclose
    have htext : (ItemKind.block is).render = "\x7b" ++ (Item.renderSpaced is ++ (" " ++ "\x7d")) := by
      have hsplit : " \x7d" = " " ++ "\x7d" := rfl
      rw [ItemKind.render, hsplit]
      simp only [String.append_assoc]
    refine ⟨_, _, rfl, ⟨htext ▸ hecho, fun s rs _ hm => ?_⟩, fun hsep s rs d _ _ hd => ?_⟩
    · rw [List.cons_append, startsMinusNumber_cons_of_ne (by simp [ofChar, single])] at hm
      exact Bool.noConfusion hm
    · rw [List.cons_append, List.append_assoc, List.singleton_append] at hd
      obtain ⟨js, d', hjs, hbares, hd'⟩ := hagain hsep s rs d hd
      have hagain' : Runs (block body) d (.block js) d'.advance := by
        unfold block
        rw [runs_cursor_bind, runs_advance_bind]
        exact (runs_liftAll.2 hjs).bind ((runs_closeBrace hd').bind rfl)
      exact ⟨_, d'.advance, hagain'.bind rfl, congrArg ItemKind.block hbares, Cursor.lexemes_advance hd'⟩

/-! ### Macros -/

theorem liftM_bind_pure {α β : Type} (p : Parser α) (f : α → β) :
    (liftM (do return f (← p) : Parser β) : ItemParser β) = do return f (← (liftM p : ItemParser α)) := by
  funext r
  cases hp : p r.cursor with
  | ok a d => simp [liftM, monadLift, MonadLift.monadLift, Bind.bind, EStateM.bind, hp, Pure.pure, EStateM.pure]
  | error e d => simp [liftM, monadLift, MonadLift.monadLift, Bind.bind, EStateM.bind, hp]

theorem macroDecl_eq (isList : Bool) (body : StateM Reading (List Item)) :
    macroDecl isList body = (do
      advance
      let signatures ← Parser.heads isList
      let opening := (← cursor).here
      Parser.expect (.mark .openBrace) .bodyStart
      let items ← body
      if !(← takeIf (.mark .closeBrace)) then report ⟨.unclosedMacro, opening⟩
      return .macroDecl isList signatures items) := by
  cases isList with
  | true => rfl
  | false =>
    have hheads : Parser.heads false = do return [← Parser.signature] := rfl
    rw [hheads, liftM_bind_pure, macroDecl]
    simp only [bind_assoc, pure_bind, if_neg Bool.false_ne_true]

/-- What a macro starts with. -/
def headKind (isList : Bool) : TokenKind := if isList then .directive .list else .keyword .macroDecl

/-- How it is spelled. -/
def headWord (isList : Bool) : String := if isList then "#list" else "macro"

theorem lexesAs_head (isList : Bool) : LexesAs (headKind isList) (headWord isList) := by
  cases isList with
  | false => exact Parser.lexesAs_keyword .macroDecl
  | true => exact lexesAs_directive (by decide)

theorem startsAlone_head (isList : Bool) : Parser.StartsAlone (headKind isList) := by
  cases isList with
  | false => exact Parser.startsAlone_keyword .macroDecl
  | true => exact startsAlone_directive .list

theorem render_macroDecl (isList : Bool) (signatures : List Signature) (is : List Item) :
    (ItemKind.macroDecl isList signatures is).render = headWord isList ++ " " ++
      (", ".intercalate (signatures.map (·.render)) ++ " " ++
        ("\x7b" ++ (Item.renderSpaced is ++ (" " ++ "\x7d")))) := by
  have hopen : " \x7b" = " " ++ "\x7b" := rfl
  have hclose : " \x7d" = " " ++ "\x7d" := rfl
  have hword : (if isList then "#list " else "macro ") = headWord isList ++ " " := by
    cases isList <;> rfl
  rw [ItemKind.render, hopen, hclose, hword]
  simp only [String.append_assoc]

/-- **A macro, or a list of macros.** -/
theorem echoesKind_macroDecl (hretains : RetainsAll body) (hbody : EchoesAll body) (hc : c.FromText)
    {isList : Bool} (hk : Lexeme.kind? c.lexemes = some (headKind isList)) :
    EchoesKind (do return some (← macroDecl isList body)) c := by
  intro o c' hrun
  obtain ⟨k, c₅, hmacro, hrun⟩ := hrun.of_bind fun _ => .pure _
  cases hrun
  have hlast : ∀ closed opening signatures is, Retains (do
      if !closed then report ⟨.unclosedMacro, opening⟩
      return .macroDecl isList signatures is : ItemParser ItemKind) := fun _ _ _ _ =>
    .ite (.bind (.report _) fun _ => .pure _) (.pure _)
  rw [macroDecl_eq, runs_advance_bind] at hmacro
  obtain ⟨text, s, ls, hrow⟩ := Cursor.exists_of_kind? hk
  have hpasses := Cursor.passes_advance hrow
  have hc₁ := hc.of_passes hpasses
  obtain ⟨sigs, c₂, hsigs, hmacro⟩ := hmacro.of_bind fun _ => .bind .cursor fun _ =>
    .bind (.lift _) fun _ => .bind (.of_all hretains) fun _ => .bind (.lift _) fun _ => hlast _ _ _ _
  rw [runs_cursor_bind] at hmacro
  obtain ⟨u, c₃, hbrace, hmacro⟩ := hmacro.of_bind fun _ =>
    .bind (.of_all hretains) fun _ => .bind (.lift _) fun _ => hlast _ _ _ _
  obtain ⟨is, c₄, his, hmacro⟩ := hmacro.of_bind fun _ => .bind (.lift _) fun _ => hlast _ _ _ _
  obtain ⟨closed, c₅, hclosed, hmacro⟩ := hmacro.of_bind fun _ => hlast _ _ _ _
  cases closed with
  | false => exact absurd hmacro (not_runs_report (.pure _))
  | true =>
    cases hmacro
    obtain ⟨hclose, rfl⟩ := runs_takeIf hclosed rfl
    obtain ⟨hopen, rfl⟩ := Parser.ok_of_expect (runs_lift.1 hbrace)
    obtain ⟨⟨sig, rest, rfl, hlist⟩, hlegible, hsuffix⟩ :=
      Parser.ensures_heads hc₁.genuine isList sigs c₂ (runs_lift.1 hsigs)
    obtain ⟨ls', hecho, hagain⟩ :=
      echoes_braces hbody (hc₁.of_suffix hsuffix) hopen (runs_liftAll.1 his) hclose
    refine ⟨_, _, rfl, echoKind_behindToken (lexesAs_head isList) (startsAlone_head isList)
      (startsAlone_head isList) rfl hk (hecho.passes.suffix.trans hsuffix)
      ((Signature.prints_all hlegible (by simp)).spaced hecho.prints) (render_macroDecl _ _ _), ?_⟩
    intro hsep t rs d _ _ hd
    rw [List.cons_append, List.append_assoc, List.cons_append, List.append_assoc,
      List.singleton_append] at hd
    obtain ⟨xs, d₂, hxs, hbare, hd₂⟩ := Parser.heads_row hlist hlegible (isSpaced_cons _ _ _) rfl
      (Cursor.lexemes_advance hd)
    obtain ⟨js, d₃, hjs, hbares, hd₃⟩ := hagain hsep true rs d₂ hd₂
    have hagain' : Runs (macroDecl isList body) d (.macroDecl isList xs js) d₃.advance := by
      rw [macroDecl_eq, runs_advance_bind]
      refine (runs_lift.2 hxs).bind (runs_cursor_bind.2 ?_)
      refine (runs_lift.2 (Parser.expect_pos _ (by rw [hd₂]; rfl))).bind ?_
      exact (runs_liftAll.2 hjs).bind ((runs_closeBrace hd₃).bind rfl)
    refine ⟨_, d₃.advance, hagain'.bind rfl, ?_, Cursor.lexemes_advance hd₃⟩
    have hfolded : (sig :: rest).map (·.change .bare) =
        ((sig :: rest).map (·.change .foldSigns)).map (·.change .bare) := by
      rw [List.map_map]
      rfl
    exact congrArg₂ (ItemKind.macroDecl isList) (hbare.trans hfolded) hbares

end Braces

/-! ### Questions about the first token -/

theorem telling_never : Telling fun _ => false := ⟨rfl, rfl, rfl, fun _ => rfl⟩

theorem telling_closeBrace : Telling (· == .mark .closeBrace) := telling_beq rfl (by simp) rfl

theorem telling_endsBranch : Telling endsBranch where
  integer := rfl
  decimal := rfl
  minus := rfl
  leading d := by
    cases d with
    | chain f w => cases w <;> rfl
    | _ => rfl

/-- What starts an expression and is neither a word nor a directive. -/
def opensExpression (kind : TokenKind) : Bool :=
  kind.startsExpression && kind != .ident && !kind.isDirective

theorem telling_opensExpression : Telling (!opensExpression ·) where
  integer := rfl
  decimal := rfl
  minus := rfl
  leading d := by simp [opensExpression, TokenKind.isDirective]

theorem exists_token {kind : TokenKind} (h : Lexeme.kind? c.lexemes = some kind) :
    ∃ t, c.peek? 0 = some t ∧ t.kind = kind := by
  obtain ⟨text, s, ls, hrow⟩ := Cursor.exists_of_kind? h
  obtain ⟨t, ht, htl⟩ := Cursor.peek?_zero hrow
  exact ⟨t, ht, congrArg Lexeme.kind htl⟩

theorem kind?_of_peek? {t : Token} (h : c.peek? 0 = some t) :
    Lexeme.kind? c.lexemes = some t.kind := by
  rw [← Cursor.kind?_eq, Cursor.kind?, h]
  rfl

/-- A directive at both starts. -/
theorem directive_of_alike {src out : List Lexeme} (h : Alike src out) {word : DirectiveWord}
    (hk : Lexeme.kind? src = some (.directive word)) : ∃ word' : DirectiveWord,
      Lexeme.kind? out = some (.directive word') ∧ word'.leading = word.leading := by
  have hlead := (startsAlone_directive word).lead_eq hk
  have hout : lead out = .other (.directive word.leading) := by
    rcases h with h | ⟨h, -⟩
    · rw [← h, hlead]
      rfl
    · rw [hlead] at h
      cases h
  match out with
  | [] => cases hout
  | l :: ls =>
    obtain ⟨-, ⟨-, hl⟩ | hl⟩ := @lead_of_ne_number l ls (by rw [hout]; simp)
    · rw [hout] at hl
      cases hl
    · rw [hout, Lead.other.injEq] at hl
      cases hkind : l.kind with
      | directive word' =>
        rw [hkind, leading, TokenKind.directive.injEq] at hl
        exact ⟨word', by rw [kind?_cons, hkind], hl.symm⟩
      | _ =>
        rw [hkind] at hl
        cases hl

/-! ### Items of one level -/

/-- What looks alike is read alike. -/
theorem EchoesKind.of_alike {p q : ItemParser (Option ItemKind)} (h : EchoesKind p c)
    (hq : ∀ d : Cursor, Alike c.lexemes d.lexemes → q ⟨d, []⟩ = p ⟨d, []⟩) : EchoesKind q c := by
  intro o c' hrun
  obtain ⟨k, row, ho, hecho, hreads⟩ := h o c' ((hq c (.of_eq rfl)).symm.trans hrun)
  refine ⟨k, row, ho, hecho, fun hsep s rs d hrs hopen hd => ?_⟩
  obtain ⟨b, d', hrun', hb, hd'⟩ := hreads hsep s rs d hrs hopen hd
  exact ⟨b, d', (hq d (hd ▸ hecho.start s rs hrs)).trans hrun', hb, hd'⟩

section Level

variable {deeper : Deeper} {scope : Scope} {o : Option ItemKind}

/-- `q` reads every token but the word of a site as an item of the level. -/
def ReadsLeaf (v : Vocabulary) (levels : Nat) (deeper : Deeper) (scope : Scope)
    (q : ItemParser (Option ItemKind)) : Prop :=
  ∀ (d : Cursor) t, d.peek? 0 = some t → t.kind ≠ .keyword .site →
    q ⟨d, []⟩ = leaf v levels deeper scope t ⟨d, []⟩

variable {q : ItemParser (Option ItemKind)}

/-- The kind of the first token decides what is read. -/
theorem ReadsLeaf.echoes (hq : ReadsLeaf v levels deeper scope q) {p : ItemParser (Option ItemKind)} {kind : TokenKind}
    (hk : Lexeme.kind? c.lexemes = some kind) (hn : kind.isNumber = false)
    (hs : kind ≠ .operator .sub) (hd : kind.isDirective = false) (hsite : kind ≠ .keyword .site)
    (hp : ∀ t : Token, t.kind = kind → leaf v levels deeper scope t = p) (h : EchoesKind p c) :
    EchoesKind q c := by
  refine h.of_alike fun d halike => ?_
  obtain ⟨t, ht, hkind⟩ := exists_token ((halike.kind?_iff hn hs hd).1 hk)
  rw [hq d t ht (hkind ▸ hsite), hp t hkind]

/-! #### Directives -/

/-- A directive is read without a report where it is not refused. -/
theorem runs_directive (word : DirectiveWord) : Runs (directive v levels deeper scope word) c o c' ↔
    (needsMacro word && !scope.inMacro) = false ∧
      Runs (directiveAnywhere v levels deeper scope word) c o c' := by
  unfold directive
  rw [runs_cursor_bind]
  have hlast : ∀ o, Retains (do
      if needsMacro word && !scope.inMacro then
        report ⟨.directiveOutsideMacro (c.found.getD ""), c.here⟩
        return none
      else return o : ItemParser (Option ItemKind)) := fun _ =>
    .ite (.bind (.report _) fun _ => .pure _) (.pure _)
  constructor
  · intro hrun
    obtain ⟨o', c₁, hrun', hrun⟩ := hrun.of_bind hlast
    split at hrun
    · exact absurd hrun (not_runs_report (.pure _))
    · rename_i hplace
      cases hrun
      exact ⟨by simpa using hplace, hrun'⟩
  · rintro ⟨hplace, hrun⟩
    refine hrun.bind ?_
    rw [hplace, if_neg Bool.false_ne_true]
    rfl

theorem echoesKind_directive {word : DirectiveWord}
    (h : EchoesKind (directiveAnywhere v levels deeper scope word) c) :
    EchoesKind (directive v levels deeper scope word) c := by
  intro o c' hrun
  obtain ⟨hplace, hrun⟩ := (runs_directive word).1 hrun
  obtain ⟨k, row, ho, hecho, hreads⟩ := h o c' hrun
  refine ⟨k, row, ho, hecho, fun hsep s rs d hrs hopen hd => ?_⟩
  obtain ⟨b, d', hrun', hb, hd'⟩ := hreads hsep s rs d hrs hopen hd
  exact ⟨b, d', (runs_directive word).2 ⟨hplace, hrun'⟩, hb, hd'⟩

/-- A directive that stands alone is an item. -/
theorem echoes_directiveItem {p : Parser Directive} (h : Parser.Echoes .directive p c) :
    Parser.Echoes .kind (do return .directive (← p)) c := by
  intro k c' hrun
  obtain ⟨d, c₁, hd, hrun⟩ := Parser.ok_of_bind hrun
  cases hrun
  obtain ⟨row, hecho, hreads⟩ := h d c' hd
  refine ⟨row, hecho, fun s rs e hrs _ he => ?_⟩
  obtain ⟨b, e', hrun', hb, he'⟩ := hreads s rs e hrs (by simp [Writing.directive]) he
  exact ⟨.directive b, e', by rw [Parser.bind_of_ok hrun']; rfl, congrArg ItemKind.directive hb, he'⟩

theorem lexesAs_bodyOp (op : BodyOp) : LexesAs (.directive (.bodyOp op)) op.word := by
  cases op <;> exact lexesAs_directive (by decide)

/-- What a macro does with an argument. -/
theorem echoesKind_bodyOp (hc : c.FromText) {op : BodyOp}
    (hk : Lexeme.kind? c.lexemes = some (.directive (.bodyOp op))) :
    EchoesKind (do advance; return some (.bodyOp op (← Parser.name .bodyOp))) c := by
  have hecho : Parser.Echoes .kind (do Parser.advance; return .bodyOp op (← Parser.name .bodyOp)) c :=
    Parser.echoes_named hc rfl (lexesAs_bodyOp op) (startsAlone_directive _) hk _ (fun _ => rfl)
      fun _ => rfl
  have hlift : EchoesKind (do return some (.bodyOp op (← (do
      Parser.advance
      Parser.name .bodyOp : Parser String)))) c := echoesKind_lift hecho hk rfl (by simp)
  exact hlift.of_alike fun d _ => rfl

/-- What is unexpected is not read without a report. -/
theorem not_runs_unexpected (scope : Scope) : ¬Runs (unexpected scope) c o c' := fun hrun =>
  not_runs_report (.bind .advance fun _ => .pure _) (runs_cursor_bind.1 hrun)

theorem echoesKind_unexpected (scope : Scope) : EchoesKind (unexpected scope) c := fun _ _ hrun =>
  absurd hrun (not_runs_unexpected scope)

/-- **A directive that opens no conditional.** -/
theorem echoesKind_directiveAnywhere (hc : c.FromText) {word : DirectiveWord}
    (hword : Parser.openedFamily? word = none)
    (hk : Lexeme.kind? c.lexemes = some (.directive word)) :
    EchoesKind (directiveAnywhere v levels deeper scope word) c := by
  cases hp : Parser.plainDirective? v levels word with
  | some p =>
    have heq : directiveAnywhere v levels deeper scope word = do return some (.directive (← p)) := by
      unfold directiveAnywhere
      rw [hp]
    rw [heq]
    exact echoesKind_lift (echoes_directiveItem (Parser.echoes_plainDirective hc hk hp)) hk rfl (by simp)
  | none =>
    cases word with
    | bodyOp op => exact echoesKind_bodyOp hc hk
    | unique => exact echoesKind_expr hc
    | unknown =>
      intro o c' hrun
      have hreport : ¬Runs (do
          report ⟨.unknownDirective (c.found.getD ""), c.here⟩
          advance
          return none : ItemParser (Option ItemKind)) c o c' :=
        not_runs_report (.bind .advance fun _ => .pure _)
      exact absurd hrun hreport
    | chain f w =>
      cases w with
      | opening => cases hword
      | _ => cases f <;> exact echoesKind_unexpected scope
    | list => exact echoesKind_unexpected scope
    | form f => exact echoesKind_unexpected scope
    | ifdef => cases hword
    | ifndef => cases hword
    | ifarg => cases hword
    | _ => cases hp

theorem directiveAnywhere_opening {next : Scope → ItemParser (Option Item)} {word : DirectiveWord}
    {family : Family} (h : Parser.openedFamily? word = some family) :
    directiveAnywhere v levels (some next) scope word = do
      return some (← conditional family word (Parser.expression v (levels - 1) true)
        (allItems (next scope) endsBranch)) := by
  cases word with
  | chain f w =>
    cases w with
    | opening => cases f <;> cases h <;> rfl
    | _ => cases h
  | ifdef => cases h; rfl
  | ifndef => cases h; rfl
  | ifarg => cases h; rfl
  | _ => cases h

/-- Where a conditional may stand depends on its family only. -/
theorem needsMacro_of_opens {word : DirectiveWord} {family : Family}
    (h : Parser.openedFamily? word = some family) : needsMacro word = (family == .macroBody) := by
  cases word with
  | chain f w =>
    cases w with
    | opening => cases f <;> cases h <;> rfl
    | _ => cases h
  | ifdef => cases h; rfl
  | ifndef => cases h; rfl
  | ifarg => cases h; rfl
  | _ => cases h

theorem leaf_directive {t : Token} {word : DirectiveWord} (h : t.kind = .directive word)
    (hlist : word ≠ .list) : leaf v levels deeper scope t = directive v levels deeper scope word := by
  unfold leaf
  rw [h]
  cases word <;> first | rfl | exact absurd rfl hlist

/-- A parser of the level reads its items, with those in them, and reads them back. -/
structure ReadsBelow (deeper : Deeper) : Prop where
  retains : ∀ next ∈ deeper, ∀ scope, Retains (next scope)
  echoes : ∀ next ∈ deeper, ∀ scope (c : Cursor), c.FromText → EchoesItem (next scope) c

theorem ReadsBelow.body {next : Scope → ItemParser (Option Item)} (h : ReadsBelow (some next))
    (scope : Scope) {stop : TokenKind → Bool} (hstop : Telling stop) :
    RetainsAll (allItems (next scope) stop) ∧ EchoesAll (allItems (next scope) stop) :=
  ⟨retains_allItems (h.retains next rfl scope) stop,
    echoesAll_allItems hstop (h.retains next rfl scope) (h.echoes next rfl scope)⟩

/-- **A directive that opens a conditional.** -/
theorem ReadsLeaf.echoes_conditional (hq : ReadsLeaf v levels deeper scope q)
    (hdeeper : ReadsBelow deeper) (hc : c.FromText) {word : DirectiveWord} {family : Family}
    (hopens : Parser.openedFamily? word = some family)
    (hk : Lexeme.kind? c.lexemes = some (.directive word)) : EchoesKind q c := by
  have hlist : ∀ {word}, Parser.openedFamily? word = some family → word ≠ .list := by
    rintro _ h rfl
    cases h
  have hat : ∀ {d : Cursor} {word}, Parser.openedFamily? word = some family →
      Lexeme.kind? d.lexemes = some (.directive word) →
      q ⟨d, []⟩ = directive v levels deeper scope word ⟨d, []⟩ := by
    intro d word hopens hk
    obtain ⟨t, ht, hkind⟩ := exists_token hk
    rw [hq d t ht (by simp [hkind]), leaf_directive hkind (hlist hopens)]
  intro o c' hrun
  obtain ⟨hplace, hrun⟩ := (runs_directive word).1 ((hat hopens hk).symm.trans hrun)
  cases deeper with
  | none =>
    have hfail : directiveAnywhere v levels none scope word = liftM (Parser.fail .nestingTooDeep) := by
      cases word with
      | chain f w =>
        cases w with
        | opening => cases f <;> rfl
        | _ => cases hopens
      | ifdef => rfl
      | ifndef => rfl
      | ifarg => rfl
      | _ => cases hopens
    rw [hfail] at hrun
    cases hrun
  | some next =>
    obtain ⟨hretains, hbody⟩ := hdeeper.body scope telling_endsBranch
    rw [directiveAnywhere_opening hopens] at hrun
    obtain ⟨k, c₁, hconditional, hrun⟩ := hrun.of_bind fun _ => .pure _
    cases hrun
    obtain ⟨word', row, hopens', hword, hecho, hreads⟩ :=
      ItemParser.echoes_conditional hretains hbody hc hopens hk hconditional
    refine ⟨k, row, rfl, hecho, fun hsep s rs d hrs hopen hd => ?_⟩
    obtain ⟨b, d', hrun', hb, hd'⟩ := hreads hsep s rs d hrs hopen hd
    refine ⟨b, d', (hat hopens' (hd ▸ hword s rs)).trans ?_, hb, hd'⟩
    refine (runs_directive word').2 ⟨?_, ?_⟩
    · rw [needsMacro_of_opens hopens', ← needsMacro_of_opens hopens, hplace]
    · rw [directiveAnywhere_opening hopens']
      exact hrun'

/-- Of the directives that open no conditional and end no branch, none may take another's place. -/
theorem eq_of_leading_eq {word word' : DirectiveWord} (hopens : Parser.openedFamily? word = none)
    (hcloses : word.closesBranch = false) (h : word'.leading = word.leading) : word' = word := by
  have hword : word.leading = word := by
    cases word with
    | chain f w => cases w <;> first | rfl | exact Bool.noConfusion hcloses
    | ifndef => cases hopens
    | _ => rfl
  have hword' : word'.leading = word' ∨ word'.leading = .ifdef ∨
      word'.leading = .chain .document .endif := by
    cases word' with
    | chain f w => cases w <;> first | exact .inl rfl | exact .inr (.inr rfl)
    | ifndef => exact .inr (.inl rfl)
    | _ => exact .inl rfl
  rw [h, hword] at hword'
  rcases hword' with h | rfl | rfl
  · exact h.symm
  · cases hopens
  · exact Bool.noConfusion hcloses

theorem not_runs_closer {word : DirectiveWord} (h : word.closesBranch = true) :
    ¬Runs (directiveAnywhere v levels deeper scope word) c o c' := by
  intro hrun
  have hunexpected : directiveAnywhere v levels deeper scope word = unexpected scope := by
    cases word with
    | chain f w =>
      cases w with
      | opening => cases h
      | _ => cases f <;> rfl
    | _ => cases h
  rw [hunexpected] at hrun
  exact not_runs_unexpected scope hrun

/-- **A directive.** -/
theorem ReadsLeaf.echoes_directive (hq : ReadsLeaf v levels deeper scope q)
    (hdeeper : ReadsBelow deeper) (hc : c.FromText) {word : DirectiveWord} (hlist : word ≠ .list)
    (hk : Lexeme.kind? c.lexemes = some (.directive word)) : EchoesKind q c := by
  have hat : ∀ d : Cursor, Lexeme.kind? d.lexemes = some (.directive word) →
      q ⟨d, []⟩ = directive v levels deeper scope word ⟨d, []⟩ := by
    intro d hd
    obtain ⟨t, ht, hkind⟩ := exists_token hd
    rw [hq d t ht (by simp [hkind]), leaf_directive hkind hlist]
  cases hopens : Parser.openedFamily? word with
  | some family => exact hq.echoes_conditional hdeeper hc hopens hk
  | none =>
    cases hcloses : word.closesBranch with
    | true =>
      intro o c' hrun
      exact absurd ((runs_directive word).1 ((hat c hk).symm.trans hrun)).2 (not_runs_closer hcloses)
    | false =>
      refine (echoesKind_directive (echoesKind_directiveAnywhere hc hopens hk)).of_alike
        fun d halike => hat d ?_
      obtain ⟨word', hk', hleading⟩ := directive_of_alike halike hk
      rw [hk', eq_of_leading_eq hopens hcloses hleading]

/-! #### Macros -/

/-- A macro is read without a report where it is not refused. -/
theorem runs_macroItem (isList : Bool) : Runs (macroItem deeper scope isList) c o c' ↔
    scope.inMacro = false ∧ ∃ next ∈ deeper, Runs (do return some (← macroDecl isList (allItems
      (next ⟨if isList then .listBody else .macroBody, true⟩) (· == .mark .closeBrace)))) c o c' := by
  unfold macroItem
  rw [runs_cursor_bind]
  have hlast : ∀ k, Retains (do
      if scope.inMacro then
        report ⟨.nestedMacro, c.here⟩
        return none
      else return some k : ItemParser (Option ItemKind)) := fun _ =>
    .ite (.bind (.report _) fun _ => .pure _) (.pure _)
  constructor
  · intro hrun
    obtain ⟨k, c₁, hrun', hrun⟩ := hrun.of_bind hlast
    split at hrun
    · exact absurd hrun (not_runs_report (.pure _))
    · rename_i hplace
      cases hrun
      cases deeper with
      | none => cases hrun'
      | some next => exact ⟨by simpa using hplace, next, rfl, hrun'.bind rfl⟩
  · rintro ⟨hplace, next, rfl, hrun⟩
    obtain ⟨k, c₁, hrun', hrun⟩ := hrun.of_bind fun _ => .pure _
    cases hrun
    have hmacro : Runs (nested (some next) fun next => macroDecl isList (allItems
        (next ⟨if isList then .listBody else .macroBody, true⟩) (· == .mark .closeBrace))) c k c' := hrun'
    refine hmacro.bind ?_
    rw [hplace, if_neg Bool.false_ne_true]
    rfl

theorem echoesKind_macroItem (hdeeper : ReadsBelow deeper) (hc : c.FromText) {isList : Bool}
    (hk : Lexeme.kind? c.lexemes = some (headKind isList)) :
    EchoesKind (macroItem deeper scope isList) c := by
  intro o c' hrun
  obtain ⟨hplace, next, rfl, hmacro⟩ := (runs_macroItem isList).1 hrun
  obtain ⟨hretains, hbody⟩ :=
    hdeeper.body ⟨if isList then .listBody else .macroBody, true⟩ telling_closeBrace
  obtain ⟨k, row, ho, hecho, hreads⟩ := echoesKind_macroDecl hretains hbody hc hk o c' hmacro
  refine ⟨k, row, ho, hecho, fun hsep s rs d hrs hopen hd => ?_⟩
  obtain ⟨b, d', hrun', hb, hd'⟩ := hreads hsep s rs d hrs hopen hd
  exact ⟨b, d', (runs_macroItem isList).2 ⟨hplace, next, rfl, hrun'⟩, hb, hd'⟩

/-! #### All items -/

/-- An expression that starts with a number, a sign, a string or a parenthesis. -/
theorem ReadsLeaf.echoes_expr (hq : ReadsLeaf v levels deeper scope q) (hc : c.FromText)
    {kind : TokenKind} (hk : Lexeme.kind? c.lexemes = some kind) (hopens : opensExpression kind = true) :
    EchoesKind q c := by
  have hecho : EchoesKind (do return some (.expr (← Parser.expression v levels false))) c :=
    echoesKind_expr hc
  refine hecho.of_alike fun d halike => ?_
  have hasks := halike.asks telling_opensExpression
  rw [hk, Option.map_some, Option.getD_some, hopens] at hasks
  obtain ⟨kind', hk'⟩ : ∃ kind', Lexeme.kind? d.lexemes = some kind' := by
    cases hd : d.lexemes with
    | nil =>
      rw [halike.nil_iff.2 hd] at hk
      cases hk
    | cons l ls => exact ⟨_, rfl⟩
  rw [hk', Option.map_some, Option.getD_some] at hasks
  obtain ⟨t, ht, rfl⟩ := exists_token hk'
  have hleaf : leaf v levels deeper scope t = do
      return some (.expr (← Parser.expression v levels false)) := by
    unfold leaf
    cases hkind : t.kind with
    | integer => rfl
    | decimal => rfl
    | string => rfl
    | operator op => cases op <;> rw [hkind] at hasks <;> first | rfl | exact Bool.noConfusion hasks
    | mark m => cases m <;> rw [hkind] at hasks <;> first | rfl | exact Bool.noConfusion hasks
    | _ =>
      rw [hkind] at hasks
      simp [opensExpression, TokenKind.isDirective, TokenKind.startsExpression,
        TokenKind.startsOperand] at hasks
  rw [hq d t ht ?_, hleaf]
  intro hsite
  rw [hsite] at hasks
  exact Bool.noConfusion hasks

theorem echoesKind_kind {p : Parser ItemKind} {kind : TokenKind} (h : Parser.Echoes .kind p c)
    (hk : Lexeme.kind? c.lexemes = some kind) (hn : kind.isNumber = false) (hs : kind ≠ .operator .sub) :
    EchoesKind (do return some (← p)) c :=
  echoesKind_lift (f := id) ((bind_pure p).symm ▸ h) hk hn hs

/-- A block is an item of a list of macros. -/
theorem echoesKind_nestedBlock (hdeeper : ReadsBelow deeper) (hc : c.FromText)
    (hk : Lexeme.kind? c.lexemes = some (.mark .openBrace)) (inner : Scope) :
    EchoesKind (nested deeper fun next => do
      return some (← block (allItems (next inner) (· == .mark .closeBrace)))) c := by
  cases deeper with
  | none =>
    intro o c' hrun
    cases hrun
  | some next => exact echoesKind_block (hdeeper.body inner telling_closeBrace).2 hc hk

/-- **An item of one level.** -/
theorem ReadsLeaf.echoes_leaf (hq : ReadsLeaf v levels deeper scope q) (hdeeper : ReadsBelow deeper)
    (hc : c.FromText) {kind : TokenKind} (hk : Lexeme.kind? c.lexemes = some kind)
    (hsite : kind ≠ .keyword .site) : EchoesKind q c := by
  -- what the kind of the first token decides
  have hitem : ∀ {p : Parser ItemKind}, kind.isNumber = false → kind ≠ .operator .sub →
      kind.isDirective = false →
      (∀ t : Token, t.kind = kind → leaf v levels deeper scope t = do return some (← p)) →
      Parser.Echoes .kind p c → EchoesKind q c := fun hn hs hd hp hecho =>
    hq.echoes hk hn hs hd hsite hp (echoesKind_kind hecho hk hn hs)
  have hnone : kind.isNumber = false → kind ≠ .operator .sub → kind.isDirective = false →
      (∀ t : Token, t.kind = kind → leaf v levels deeper scope t = unexpected scope) →
      EchoesKind q c := fun hn hs hd hp =>
    hq.echoes hk hn hs hd hsite hp (echoesKind_unexpected scope)
  cases kind with
  | keyword w =>
    cases w with
    | prm =>
      exact hitem (p := Parser.declaration (Parser.expression v levels true) scope .prm) rfl (by simp) rfl
        (fun t ht => by simp only [leaf, ht]) (Parser.echoes_declaration hc rfl hk)
    | localPrm =>
      exact hitem (p := Parser.declaration (Parser.expression v levels true) scope .localPrm) rfl (by simp) rfl
        (fun t ht => by simp only [leaf, ht]) (Parser.echoes_declaration hc rfl hk)
    | existingPrm =>
      exact hitem (p := Parser.existing (Parser.expression v levels true)) rfl (by simp) rfl
        (fun t ht => by simp only [leaf, ht]) (Parser.echoes_existing hc hk)
    | site => exact absurd rfl hsite
    | macroDecl =>
      exact hq.echoes (p := macroItem deeper scope false) hk rfl (by simp) rfl hsite
        (fun t ht => by simp only [leaf, ht]) (echoesKind_macroItem hdeeper hc hk)
  | directive word =>
    by_cases hlist : word = .list
    · subst hlist
      have hecho : EchoesKind (macroItem deeper scope true) c := echoesKind_macroItem hdeeper hc hk
      refine hecho.of_alike fun d halike => ?_
      obtain ⟨word', hk', hleading⟩ := directive_of_alike halike hk
      rw [eq_of_leading_eq rfl rfl hleading] at hk'
      obtain ⟨t, ht, hkind⟩ := exists_token hk'
      rw [hq d t ht (by simp [hkind])]
      simp only [leaf, hkind]
    · exact hq.echoes_directive hdeeper hc hlist hk
  | mark m =>
    cases m with
    | atSign =>
      exact hitem (p := do return .parameter (← Parser.markedParameter v)) rfl (by simp) rfl
        (fun t ht => by simp only [leaf, ht, liftM_bind_pure, bind_assoc, pure_bind])
        (Parser.echoes_markedParameter hc (.inl hk))
    | bang =>
      exact hitem (p := do return .parameter (← Parser.markedParameter v)) rfl (by simp) rfl
        (fun t ht => by simp only [leaf, ht, liftM_bind_pure, bind_assoc, pure_bind])
        (Parser.echoes_markedParameter hc (.inr hk))
    | closeBrace =>
      intro o c' hrun
      obtain ⟨t, ht, hkind⟩ := exists_token hk
      rw [Runs, hq c t ht (hkind ▸ hsite)] at hrun
      simp only [leaf, hkind] at hrun
      exact absurd hrun (not_runs_report (.bind .advance fun _ => .pure _))
    | openBrace =>
      by_cases hlist : scope.body = .listBody
      · exact hq.echoes hk rfl (by simp) rfl hsite (fun t ht => by simp [leaf, ht, hlist])
          (echoesKind_nestedBlock hdeeper hc hk { scope with body := .delimited })
      · exact hnone rfl (by simp) rfl fun t ht => by
          simp [leaf, ht, hlist, TokenKind.startsExpression, TokenKind.startsOperand]
    | openParen => exact hq.echoes_expr hc hk rfl
    | _ => exact hnone rfl (by simp) rfl fun t ht => by simp only [leaf, ht]; rfl
  | assign op =>
    exact hitem (p := do return .equation (← Parser.equation (Parser.expression v levels true) op)) rfl
      (by simp) rfl (fun t ht => by simp only [leaf, ht, liftM_bind_pure, bind_assoc, pure_bind])
      (Parser.echoes_equationItem hc hk)
  | ident =>
    obtain ⟨word, s, ls, hrow⟩ := Cursor.exists_of_kind? hk
    have hecho : EchoesKind (do return some (← Parser.wordItem v levels scope word)) c :=
      echoesKind_kind (Parser.echoes_wordItem hc hrow) hk rfl (by simp)
    refine hecho.of_alike fun d halike => ?_
    obtain ⟨s', ls', hrow', -⟩ := halike.startsWord hrow
    obtain ⟨⟨_, _, range, _⟩, ht, htl⟩ := Cursor.peek?_zero hrow'
    cases htl
    rw [hq d _ ht (by simp)]
    rfl
  | integer => exact hq.echoes_expr hc hk rfl
  | decimal => exact hq.echoes_expr hc hk rfl
  | string => exact hq.echoes_expr hc hk rfl
  | operator op =>
    cases op with
    | add => exact hq.echoes_expr hc hk rfl
    | sub => exact hq.echoes_expr hc hk rfl
    | _ => exact hnone rfl (by simp) rfl fun t ht => by simp only [leaf, ht]; rfl
  | _ => exact hnone rfl (by simp) rfl fun t ht => by simp only [leaf, ht]; rfl

/-- What a member of a site is. -/
def memberKind (v : Vocabulary) (levels : Nat) (deeper : Deeper) (scope : Scope) :
    ItemParser (Option ItemKind) := do
  match (← cursor).peek? 0 with
  | none => return none
  | some t => leaf v levels deeper { scope with body := .siteBody } t

theorem readsLeaf_memberKind (v : Vocabulary) (levels : Nat) (deeper : Deeper) (scope : Scope) :
    ReadsLeaf v levels deeper { scope with body := .siteBody } (memberKind v levels deeper scope) := by
  intro d t ht _
  change (match d.peek? 0 with
    | none => return none
    | some t => leaf v levels deeper _ t : ItemParser (Option ItemKind)) ⟨d, []⟩ = _
  rw [ht]

theorem itemKind_some {t : Token} (ht : c.peek? 0 = some t) : itemKind v levels deeper scope ⟨c, []⟩ =
    (if t.kind = .keyword .site then
      do return some (← site (located (memberKind v levels deeper scope)))
    else leaf v levels deeper scope t : ItemParser (Option ItemKind)) ⟨c, []⟩ := by
  change (match c.peek? 0 with
    | none => unexpected scope
    | some t => _ : ItemParser (Option ItemKind)) ⟨c, []⟩ = _
  rw [ht]
  rfl

/-- An item, with those in it. -/
theorem echoesKind_itemKind (hdeeper : ReadsBelow deeper) (hc : c.FromText) :
    EchoesKind (itemKind v levels deeper scope) c := by
  cases hk : Lexeme.kind? c.lexemes with
  | none =>
    intro o c' hrun
    have hunexpected : itemKind v levels deeper scope ⟨c, []⟩ = unexpected scope ⟨c, []⟩ := by
      have hnil : c.peek? 0 = none := by
        rw [← Cursor.kind?_eq, Cursor.kind?, Option.map_eq_none_iff] at hk
        exact hk
      change (match c.peek? 0 with
        | none => unexpected scope
        | some t => _ : ItemParser (Option ItemKind)) ⟨c, []⟩ = _
      rw [hnil]
    exact absurd (hunexpected.symm.trans hrun) (not_runs_unexpected scope)
  | some kind =>
    by_cases hsite : kind = .keyword .site
    · subst hsite
      have hretains : Retains (located (memberKind v levels deeper scope)) :=
        retains_member v levels scope hdeeper.retains
      have hmember : ∀ c : Cursor, c.FromText → isAtMember c = true →
          EchoesItem (located (memberKind v levels deeper scope)) c := by
        intro c hc hat
        have hmember : ∃ kind, Lexeme.kind? c.lexemes = some kind ∧ kind ≠ .keyword .site := by
          cases ht : c.peek? 0 with
          | none => simp [isAtMember, ht] at hat
          | some t =>
            refine ⟨t.kind, kind?_of_peek? ht, fun hsite => ?_⟩
            simp [isAtMember, ht, hsite] at hat
        obtain ⟨kind, hk, hsite⟩ := hmember
        exact echoesItem_located
          ((readsLeaf_memberKind v levels deeper scope).echoes_leaf hdeeper hc hk hsite)
      refine (echoesKind_site hretains hmember hc hk).of_alike fun d halike => ?_
      obtain ⟨t, ht, hkind⟩ := exists_token ((halike.kind?_iff rfl (by simp) rfl).1 hk)
      rw [itemKind_some ht, if_pos hkind]
    · have hq : ReadsLeaf v levels deeper scope (itemKind v levels deeper scope) := by
        intro d t ht hsite
        rw [itemKind_some ht, if_neg hsite]
      exact hq.echoes_leaf hdeeper hc hk hsite

end Level

/-- **Items are read back**, with those in them. -/
theorem echoes_item (v : Vocabulary) (levels : Nat) (scope : Scope) {c : Cursor} (hc : c.FromText) :
    EchoesItem (item v levels scope) c := by
  induction levels generalizing scope c with
  | zero =>
    have hdeeper : ReadsBelow none := ⟨by rintro _ ⟨⟩, by rintro _ ⟨⟩⟩
    exact echoesItem_located (echoesKind_itemKind hdeeper hc)
  | succ levels ih =>
    have hdeeper : ReadsBelow (some (item v levels)) := by
      refine ⟨?_, ?_⟩
      · rintro next ⟨⟩
        exact retains_item v levels
      · rintro next ⟨⟩ scope c hc
        exact ih scope hc
    exact echoesItem_located (echoesKind_itemKind hdeeper hc)

end ItemParser

end ControlFile
