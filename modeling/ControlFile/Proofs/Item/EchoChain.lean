import ControlFile.Proofs.Item.EchoBody
import ControlFile.Proofs.Item.EchoDirective

/-!
# Conditionals are read back

A conditional may be read without a word that ends it.  It is written with one, which takes the place of
the word of another conditional that stands there in the text.
-/

namespace ControlFile

open Lexer Lexeme

namespace ItemParser

variable {v : Vocabulary} {levels limit : Nat} {c c' : Cursor}

/-! ### The words of conditionals -/

theorem lexesAs_chain (family : Family) : LexesAs (.directive (.chain family .elseif)) (family.start ++ "elseif") ∧
    LexesAs (.directive (.chain family .otherwise)) (family.start ++ "else") ∧
    LexesAs (.directive (.chain family .endif)) (family.start ++ "endif") := by
  cases family <;>
    exact ⟨lexesAs_directive (by decide), lexesAs_directive (by decide), lexesAs_directive (by decide)⟩

/-- At a word that ends a branch. -/
def ClosesBranch (ls : List Lexeme) : Prop := ∃ kind, Lexeme.kind? ls = some kind ∧ kind.closesBranch = true

theorem ClosesBranch.lead_eq {ls : List Lexeme} (h : ClosesBranch ls) :
    lead ls = .other (.directive (.chain .document .endif)) := by
  obtain ⟨kind, hk, hcloses⟩ := h
  cases kind with
  | directive d =>
    rw [(startsAlone_directive d).lead_eq hk]
    cases d with
    | chain f w =>
      cases w with
      | opening => cases hcloses
      | _ => rfl
    | _ => cases hcloses
  | _ => cases hcloses

/-- The words that end a branch may take each other's place. -/
theorem ClosesBranch.alike {src out : List Lexeme} (h : ClosesBranch src) (h' : ClosesBranch out) :
    Alike src out := .of_eq (h.lead_eq.trans h'.lead_eq.symm)

theorem ClosesBranch.startsMinusNumber {ls : List Lexeme} (h : ClosesBranch ls) :
    startsMinusNumber ls = false := by
  rw [← Bool.not_eq_true]
  intro hm
  have hlead := h.lead_eq
  rw [lead_minusNumber hm] at hlead
  exact Lead.noConfusion hlead

/-! ### The end of a conditional -/

/-- The branches behind the first are written as the row. -/
structure EchoChain (family : Family) (chain : Chain) (row : Bool → List Lexeme) (c c' : Cursor) :
    Prop where
  suffix : c'.lexemes <:+ c.lexemes
  prints : Prints (chain.render family "elseif") row
  start : ClosesBranch c.lexemes
  closes : ∀ s rs, ClosesBranch (row s ++ rs)

theorem EchoChain.follows {family : Family} {chain : Chain} {row : Bool → List Lexeme}
    (h : EchoChain family chain row c c') (rs : List Lexeme) : Follows c.lexemes (row true ++ rs) :=
  ⟨h.start.alike (h.closes true rs), h.prints.isSpaced rs⟩

/-- The items of a branch, and what is behind them. -/
theorem EchoChain.trails {family : Family} {chain : Chain} {row : Bool → List Lexeme}
    (h : EchoChain family chain row c c') {is : List Item} {ls : List Lexeme} (hall : PrintsAll is ls) :
    Trails (Item.renderSpaced is ++ (" " ++ chain.render family "elseif")) (ls ++ row true) :=
  hall.trails.append (h.prints.blank (c := ' ') rfl)

/-- The items of a branch are read again where the row is behind them. -/
theorem ReadsAllAgain.beforeChain {body : StateM Reading (List Item)} {is : List Item} {ls : List Lexeme}
    {d : Cursor} (h : ReadsAllAgain body is ls c d) {family : Family} {chain : Chain}
    {row : Bool → List Lexeme} (hchain : EchoChain family chain row c c') {rs : List Lexeme}
    (hd : d.lexemes = ls ++ (row true ++ rs)) : ∃ js d', RunsAll body d js d' ∧
      Item.bareAll js = Item.bareAll (Item.foldSignsAll is) ∧ d'.lexemes = row true ++ rs :=
  h _ (hchain.follows rs) (fun _ => (hchain.closes true rs).startsMinusNumber) hd

theorem runs_closeChain_endif {opening : Opening}
    (hk : Lexeme.kind? c.lexemes = some (.directive (.chain opening.family .endif))) :
    Runs (closeChain opening) c () c.advance := by
  unfold closeChain
  rw [runs_cursor_bind, Cursor.kind?_eq, hk]
  dsimp only
  rw [if_pos rfl]
  rfl

/-- The end of a conditional is its own end directive, or a word for what is around it. -/
theorem echoChain_done {opening : Opening} {u : Unit} (h : Runs (closeChain opening) c u c') :
    EchoChain opening.family .done
      (fun s => [⟨.directive (.chain opening.family .endif), opening.family.start ++ "endif", s⟩]) c c' := by
  suffices hends : ClosesBranch c.lexemes ∧ c'.lexemes <:+ c.lexemes from
    ⟨hends.2, (lexesAs_chain _).2.2.prints rfl (by simp), hends.1, fun s rs =>
      ⟨_, rfl, rfl⟩⟩
  unfold closeChain at h
  rw [runs_cursor_bind] at h
  split at h
  · rename_i family hk
    rw [Cursor.kind?_eq] at hk
    obtain ⟨text, s, ls, hrow⟩ := Cursor.exists_of_kind? hk
    split at h
    · cases h
      exact ⟨⟨_, hk, rfl⟩, (Cursor.passes_advance hrow).suffix⟩
    · exact absurd h (not_runs_report .advance)
  · rename_i kind _ hk
    rw [Cursor.kind?_eq] at hk
    split at h
    · rename_i hcloses
      cases h
      exact ⟨⟨_, hk, hcloses⟩, List.suffix_refl _⟩
    · cases h
  · cases h

/-! ### Later branches -/

section Branches

variable {opening : Opening} {expr : Parser Expr} {body : StateM Reading (List Item)} {chain : Chain}

theorem runs_laterBranches_elseif
    (hk : Lexeme.kind? c.lexemes = some (.directive (.chain opening.family .elseif))) :
    Runs (laterBranches opening expr body (limit + 1)) c chain c' ↔ Runs (do
      let condition ← Parser.exprCondition expr
      let items ← body
      return .branch condition items (← laterBranches opening expr body limit)) c.advance chain c' := by
  rw [laterBranches, runs_cursor_bind, Cursor.kind?_eq, hk]
  dsimp only
  rw [if_pos rfl, runs_advance_bind]

theorem runs_laterBranches_otherwise
    (hk : Lexeme.kind? c.lexemes = some (.directive (.chain opening.family .otherwise))) :
    Runs (laterBranches opening expr body (limit + 1)) c chain c' ↔ Runs (do
      let items ← body
      closeChain opening
      return .otherwise items) c.advance chain c' := by
  rw [laterBranches, runs_cursor_bind, Cursor.kind?_eq, hk]
  dsimp only
  rw [if_pos rfl, runs_advance_bind]

theorem runs_laterBranches_close
    (he : Lexeme.kind? c.lexemes ≠ some (.directive (.chain opening.family .elseif)))
    (ho : Lexeme.kind? c.lexemes ≠ some (.directive (.chain opening.family .otherwise))) :
    Runs (laterBranches opening expr body (limit + 1)) c chain c' ↔
      Runs (do closeChain opening; return .done) c chain c' := by
  rw [laterBranches, runs_cursor_bind, Cursor.kind?_eq]
  split
  · rename_i family hk
    rw [if_neg (by rintro rfl; exact he hk)]
  · rename_i family hk
    rw [if_neg (by rintro rfl; exact ho hk)]
  · exact Iff.rfl

end Branches

/-- At the row, the branches are read again without a report. -/
def ReadsChainAgain (expr : Parser Expr) (body : StateM Reading (List Item)) (family : Family)
    (chain : Chain) (row : Bool → List Lexeme) : Prop :=
  ∀ opening limit s rs (d : Cursor), opening.family = family → d.lexemes.length < limit →
    d.lexemes = row s ++ rs → ∃ chain' d', Runs (laterBranches opening expr body limit) d chain' d' ∧
      chain'.change .bare = (chain.change .foldSigns).change .bare ∧ d'.lexemes = rs

/-- The end alone is read again, whichever word was the end in the text. -/
theorem readsChainAgain_done {expr : Parser Expr} {body : StateM Reading (List Item)} (family : Family)
    (text : String) : ReadsChainAgain expr body family .done
      (fun s => [⟨.directive (.chain family .endif), text, s⟩]) := by
  rintro opening limit s rs d rfl hlimit hd
  rw [List.singleton_append] at hd
  have hk : Lexeme.kind? d.lexemes = some (.directive (.chain opening.family .endif)) := by
    rw [hd, kind?_cons]
  cases limit with
  | zero => omega
  | succ limit =>
    refine ⟨.done, d.advance, ?_, rfl, Cursor.lexemes_advance hd⟩
    rw [runs_laterBranches_close (by rw [hk]; simp) (by rw [hk]; simp)]
    exact (runs_closeChain_endif hk).bind rfl

/-- What was read of the branches behind the first has a row that they are read again from. -/
def EchoesChain (expr : Parser Expr) (body : StateM Reading (List Item)) (family : Family)
    (chain : Chain) (c c' : Cursor) : Prop :=
  ∃ row, EchoChain family chain row c c' ∧
    (chain.Separate → chain.Everywhere (fun i => i.kind.Separate) →
      ReadsChainAgain expr body family chain row)

/-- A branch with a condition of its own, and the branches behind it. -/
theorem echoesChain_elseif {body : StateM Reading (List Item)} (hretains : RetainsAll body)
    (hbody : EchoesAll body) {opening : Opening} {c : Cursor} (hc : c.FromText)
    (hk : Lexeme.kind? c.lexemes = some (.directive (.chain opening.family .elseif))) {chain : Chain}
    {c' : Cursor}
    (hlater : ∀ {c₁ : Cursor}, c₁.FromText → c₁.lexemes.length < c.lexemes.length → ∀ {rest : Chain},
      Runs (laterBranches opening (Parser.expression v levels true) body limit) c₁ rest c' →
        EchoesChain (Parser.expression v levels true) body opening.family rest c₁ c')
    (hrun : Runs (laterBranches opening (Parser.expression v levels true) body (limit + 1)) c chain c') :
    EchoesChain (Parser.expression v levels true) body opening.family chain c c' := by
  rw [runs_laterBranches_elseif hk] at hrun
  obtain ⟨text, s, ls, hrow⟩ := Cursor.exists_of_kind? hk
  have hpasses := Cursor.passes_advance hrow
  have hc₁ := hc.of_passes hpasses
  obtain ⟨cond, c₂, hcond, hrun⟩ := hrun.of_bind fun _ => .bind (.of_all hretains) fun _ =>
    (retains_laterBranches hretains _ _ _).bind fun _ => .pure _
  obtain ⟨e, rfl, hsuffix, hprints, hreads⟩ :=
    Parser.ensures_exprCondition hc₁ cond c₂ (runs_lift.1 hcond)
  obtain ⟨is, c₃, his, hrun⟩ := hrun.of_bind fun _ =>
    (retains_laterBranches hretains _ _ _).bind fun _ => .pure _
  obtain ⟨rest, c₄, hrest, hrun⟩ := hrun.of_bind fun _ => .pure _
  cases hrun
  have hc₂ := hc₁.of_suffix hsuffix
  obtain ⟨ls', hall, hagain⟩ := hbody c₂ hc₂ is c₃ (runs_liftAll.1 his)
  have hbehind := hall.suffix.trans (hsuffix.trans hpasses.suffix)
  obtain ⟨row, hchain, hagain'⟩ := hlater (hc.of_suffix hbehind) (by
    have := (hall.suffix.trans hsuffix).length_le
    have := hpasses.shorter
    omega) hrest
  have hword := (lexesAs_chain opening.family).1.prints rfl (by simp)
  have htext : (Chain.branch (.expr e) is rest).render opening.family "elseif" =
      opening.family.start ++ "elseif" ++ " " ++ (e.render ++ ";" ++
        (Item.renderSpaced is ++ (" " ++ rest.render opening.family "elseif"))) := by
    rw [Chain.render, Condition.render]
    simp only [String.append_assoc]
  refine ⟨_, ⟨hchain.suffix.trans hbehind, htext ▸ hword.spaced (hprints.trails (hchain.trails hall.prints)),
    ⟨_, hk, rfl⟩, fun s rs => ⟨_, rfl, rfl⟩⟩, ?_⟩
  rintro ⟨hsep, hseps⟩ ⟨heach, heachs⟩ opening' limit' s rs d hfamily hlimit' hd
  rw [List.append_assoc, List.singleton_append, List.append_assoc (e.row true ++ _),
    List.append_assoc ls'] at hd
  obtain ⟨cond', d₂, hcond', hbare, hd₂⟩ := hreads true _ d.advance (Cursor.lexemes_advance hd)
  obtain ⟨js, d₃, hjs, hbares, hd₃⟩ := (hagain ⟨hsep, heach⟩ d₂).beforeChain hchain hd₂
  cases limit' with
  | zero => omega
  | succ limit' =>
    obtain ⟨rest', d₄, hrest', hbare', hd₄⟩ := hagain' hseps heachs opening' limit' true rs d₃
      hfamily (by
        rw [hd₃]
        rw [hd] at hlimit'
        simp only [List.length_cons, List.length_append] at hlimit' ⊢
        omega) hd₃
    refine ⟨.branch cond' js rest', d₄, ?_, ?_, hd₄⟩
    · rw [runs_laterBranches_elseif (by rw [hd, hfamily]; rfl)]
      exact (runs_lift.2 hcond').bind ((runs_liftAll.2 hjs).bind (hrest'.bind rfl))
    · rw [Chain.change, Chain.change, Chain.change, hbare, hbare']
      exact congrArg (fun is => Chain.branch _ is _) hbares

/-- The branch for all else, and the end. -/
theorem echoesChain_otherwise {expr : Parser Expr} {body : StateM Reading (List Item)}
    (hbody : EchoesAll body) {opening : Opening} {c : Cursor} (hc : c.FromText)
    (hk : Lexeme.kind? c.lexemes = some (.directive (.chain opening.family .otherwise))) {chain : Chain}
    {c' : Cursor} (hrun : Runs (laterBranches opening expr body (limit + 1)) c chain c') :
    EchoesChain expr body opening.family chain c c' := by
  rw [runs_laterBranches_otherwise hk] at hrun
  obtain ⟨text, s, ls, hrow⟩ := Cursor.exists_of_kind? hk
  have hpasses := Cursor.passes_advance hrow
  obtain ⟨is, c₂, his, hrun⟩ := hrun.of_bind fun _ =>
    (retains_closeChain _).bind fun _ => .pure _
  obtain ⟨u, c₃, hclose, hrun⟩ := hrun.of_bind fun _ => .pure _
  cases hrun
  obtain ⟨ls', hall, hagain⟩ := hbody _ (hc.of_passes hpasses) is c₂ (runs_liftAll.1 his)
  have hchain := echoChain_done hclose
  have hword := (lexesAs_chain opening.family).2.1.prints rfl (by simp)
  have htext : (Chain.otherwise is).render opening.family "elseif" =
      opening.family.start ++ "else" ++
        (Item.renderSpaced is ++ (" " ++ Chain.done.render opening.family "elseif")) := by
    rw [Chain.render, Chain.render]
    simp only [String.append_assoc]
  refine ⟨_, ⟨hchain.suffix.trans (hall.suffix.trans hpasses.suffix),
    htext ▸ hword.trails (hchain.trails hall.prints), ⟨_, hk, rfl⟩, fun s rs => ⟨_, rfl, rfl⟩⟩, ?_⟩
  intro hsep heach opening' limit' s rs d hfamily hlimit' hd
  rw [List.append_assoc, List.singleton_append, List.append_assoc] at hd
  obtain ⟨js, d₂, hjs, hbares, hd₂⟩ :=
    (hagain ⟨hsep, heach⟩ d.advance).beforeChain hchain (Cursor.lexemes_advance hd)
  cases limit' with
  | zero => omega
  | succ limit' =>
    refine ⟨.otherwise js, d₂.advance, ?_, congrArg Chain.otherwise hbares,
      Cursor.lexemes_advance hd₂⟩
    rw [runs_laterBranches_otherwise (by rw [hd, hfamily]; rfl)]
    exact (runs_liftAll.2 hjs).bind ((runs_closeChain_endif (by rw [hd₂, hfamily]; rfl)).bind rfl)

/-- **The branches behind the first are read back.** -/
theorem echoes_laterBranches {body : StateM Reading (List Item)} (hretains : RetainsAll body)
    (hbody : EchoesAll body) {opening : Opening} (limit : Nat) {c : Cursor} (hc : c.FromText)
    (hlimit : c.lexemes.length < limit) {chain : Chain} {c' : Cursor}
    (hrun : Runs (laterBranches opening (Parser.expression v levels true) body limit) c chain c') :
    EchoesChain (Parser.expression v levels true) body opening.family chain c c' := by
  induction limit generalizing c chain with
  | zero => omega
  | succ limit ih =>
    by_cases he : Lexeme.kind? c.lexemes = some (.directive (.chain opening.family .elseif))
    · exact echoesChain_elseif hretains hbody hc he
        (fun hc₁ hshorter => ih hc₁ (by omega)) hrun
    · by_cases ho : Lexeme.kind? c.lexemes = some (.directive (.chain opening.family .otherwise))
      · exact echoesChain_otherwise hbody hc ho hrun
      · rw [runs_laterBranches_close he ho] at hrun
        obtain ⟨u, c₁, hclose, hrun⟩ := hrun.of_bind fun _ => .pure _
        cases hrun
        exact ⟨_, echoChain_done hclose, fun _ _ => readsChainAgain_done _ _⟩

/-! ### Conditionals -/

theorem startsMinusNumber_of_directive {ls : List Lexeme} {word : DirectiveWord}
    (h : Lexeme.kind? ls = some (.directive word)) : startsMinusNumber ls = false := by
  rw [← Bool.not_eq_true]
  intro hm
  rw [kind?_of_startsMinusNumber hm] at h
  cases h

/-- **A conditional is read back.**  The directive that opens it may be another one then. -/
theorem echoes_conditional {body : StateM Reading (List Item)} (hretains : RetainsAll body)
    (hbody : EchoesAll body) (hc : c.FromText) {word : DirectiveWord} {family : Family}
    (hopens : Parser.openedFamily? word = some family)
    (hk : Lexeme.kind? c.lexemes = some (.directive word)) {k : ItemKind}
    (hrun : Runs (conditional family word (Parser.expression v levels true) body) c k c') :
    ∃ word' row, Parser.openedFamily? word' = some family ∧
      (∀ s rs, Lexeme.kind? (row s ++ rs) = some (.directive word')) ∧ EchoKind k row c c' ∧
      (k.AllSeparate → ReadsAgain .kind
        (do return some (← conditional family word' (Parser.expression v levels true) body)) k row c') := by
  unfold conditional at hrun
  rw [runs_cursor_bind] at hrun
  obtain ⟨cond, c₁, hcond, hrun⟩ := hrun.of_bind fun _ => .bind (.of_all hretains) fun _ =>
    .bind .cursor fun _ => (retains_laterBranches hretains _ _ _).bind fun _ => .pure _
  obtain ⟨is, c₂, his, hrun⟩ := hrun.of_bind fun _ => .bind .cursor fun _ =>
    (retains_laterBranches hretains _ _ _).bind fun _ => .pure _
  rw [runs_cursor_bind] at hrun
  obtain ⟨rest, c₃, hrest, hrun⟩ := hrun.of_bind fun _ => .pure _
  cases hrun
  obtain ⟨word', row, hopens', hecho, hreads, hword⟩ :=
    Parser.ensures_openingCondition hc hopens hk cond c₁ (runs_lift.1 hcond)
  have hc₁ := hc.of_passes hecho.passes
  obtain ⟨ls, hall, hagain⟩ := hbody c₁ hc₁ is c₂ (runs_liftAll.1 his)
  obtain ⟨row', hchain, hagain'⟩ := echoes_laterBranches hretains hbody _ (hc₁.of_suffix hall.suffix) (by
    rw [Cursor.length_lexemes]
    exact Nat.lt_succ_self _) hrest
  have htext : (ItemKind.conditional family (.branch cond is rest)).render =
      cond.render family "if" ++
        (Item.renderSpaced is ++ (" " ++ rest.render family "elseif")) := by
    rw [ItemKind.render, Chain.render]
    simp only [String.append_assoc]
  refine ⟨word', fun s => row s ++ (ls ++ row' true), hopens', fun s rs => ?_, ⟨⟨?_, ?_, ?_⟩, ?_⟩, ?_⟩
  · rw [List.append_assoc]
    exact hword s _
  · exact hecho.passes.of_suffix (hchain.suffix.trans hall.suffix)
  · exact htext ▸ hecho.prints.trails (hchain.trails hall.prints)
  · intro s rs _
    rw [List.append_assoc, List.append_assoc]
    exact hecho.start s _ (hall.follows _ (hchain.follows rs))
  · intro s rs _ hm
    rw [List.append_assoc, startsMinusNumber_of_directive (hword s _)] at hm
    exact Bool.noConfusion hm
  · rintro ⟨⟨hsep, hseps⟩, heach, heachs⟩ s rs d hrs - hd
    rw [List.append_assoc, List.append_assoc] at hd
    obtain ⟨cond', d₁, hcond', hbare, hd₁⟩ :=
      hreads s _ d (hall.follows _ (hchain.follows rs)) (by simp [Writing.condition]) hd
    obtain ⟨js, d₂, hjs, hbares, hd₂⟩ := (hagain ⟨hsep, heach⟩ d₁).beforeChain hchain hd₁
    obtain ⟨rest', d₃, hrest', hbare', hd₃⟩ := hagain' hseps heachs
      ⟨family, d.found.getD "", d.here⟩ (d₂.rest.length + 1) true rs d₂ rfl
      (by
        rw [Cursor.length_lexemes]
        exact Nat.lt_succ_self _) hd₂
    have hagain'' : Runs (conditional family word' (Parser.expression v levels true) body) d
        (.conditional family (.branch cond' js rest')) d₃ := by
      unfold conditional
      rw [runs_cursor_bind]
      exact (runs_lift.2 hcond').bind ((runs_liftAll.2 hjs).bind (runs_cursor_bind.2 (hrest'.bind rfl)))
    refine ⟨_, d₃, hagain''.bind rfl, ?_, hd₃⟩
    have hbranch : (Chain.branch cond' js rest').change .bare =
        ((Chain.branch cond is rest).change .foldSigns).change .bare := by
      rw [Chain.change, Chain.change, Chain.change, hbare']
      exact congrArg₂ (fun cond is => Chain.branch cond is _) hbare hbares
    exact congrArg (ItemKind.conditional family) hbranch

end ItemParser

end ControlFile
