import ControlFile.Proofs.Item.EchoWord
import ControlFile.Proofs.Item.Quiet

/-!
# Rows of items are read back

What a parser of items reads without a report can be written and is read again, as what a parser of
tokens reads is (`Parser.Echoes`).  One thing comes in besides: whether the item is written with a
minus that touches a number at its start, for that is a value where the item before ends with an open
place.

The loops that read the items of a body and the members of a site go on until they are done, and where
they are done can be told from what follows (`Loop`).
-/

namespace ControlFile

open Lexer Lexeme

/-- The items in it are separate, and so are those in them, at any depth. -/
def ItemKind.AllSeparate (k : ItemKind) : Prop :=
  k.Separate ∧ k.Everywhere fun i => i.kind.Separate

def Writing.item : Writing Item where
  text := Item.render
  bare := Item.change .bare
  folded := Item.change .foldSigns
  isOpen := Item.isOpen
  like := Alike

theorem Item.render_eq (i : Item) : i.render = i.kind.render := by
  cases i
  rfl

/-! ### Signs at the start -/

theorem Prints.row_eq {text : String} {row row' : Bool → List Lexeme} (h : Prints text row)
    (h' : Prints text row') (s : Bool) : row s = row' s := by
  have heq := h.spells s [] closed_nil
  have heq' := h'.spells s [] closed_nil
  rw [heq] at heq'
  simpa using heq'

namespace Lexeme

variable {src out : List Lexeme}

theorem kind?_of_lead_minus {ls : List Lexeme} (h : lead ls = .other (.operator .sub)) :
    kind? ls = some (.operator .sub) := by
  match ls with
  | [] => cases h
  | l :: ls =>
    have hne : lead (l :: ls) ≠ .number := by
      rw [h]
      exact Lead.noConfusion
    obtain ⟨-, ⟨-, hlead⟩ | hlead⟩ := lead_of_ne_number hne
    · rw [h] at hlead
      cases hlead
    · rw [h, Lead.other.injEq] at hlead
      rw [kind?_cons]
      cases hk : l.kind with
      | operator op =>
        rw [hk] at hlead
        cases hlead
        rfl
      | _ =>
        rw [hk] at hlead
        cases hlead

/-- Where the text has neither a number nor a minus, what has been written has no minus that touches a
number. -/
theorem Alike.startsMinusNumber {kind : TokenKind} (h : Alike src out) (hk : kind? src = some kind)
    (hn : kind.isNumber = false) (hs : kind ≠ .operator .sub) :
    Lexeme.startsMinusNumber out = false := by
  rw [← Bool.not_eq_true]
  intro hm
  have hminus : kind? src ≠ some (.operator .sub) := by
    rw [hk]
    simpa using hs
  rcases h with h | ⟨h, -⟩
  · rw [lead_minusNumber hm, lead_eq_number_iff] at h
    rcases h with h | ⟨kind', hk', hn'⟩
    · exact hminus (kind?_of_startsMinusNumber h)
    · rw [hk, Option.some.injEq] at hk'
      rw [← hk', hn] at hn'
      exact Bool.noConfusion hn'
  · exact hminus (kind?_of_lead_minus h)

end Lexeme

theorem isNumber_row_literal (value : Literal) (s : Bool) (rs : List Lexeme) :
    ((Lexeme.kind? (value.row s ++ rs)).map TokenKind.isNumber).getD false =
      (value.isNumber && !value.isNegative) := by
  unfold Literal.row withMinus
  cases value.isNegative with
  | true => simp [ofChar, single, TokenKind.isNumber]
  | false => simpa using Parser.isNumber_magnitude value

/-- Written, an expression starts with a number if it says so. -/
theorem Expr.isNumber_row : (e : Expr) → (s : Bool) → (rs : List Lexeme) →
    ((Lexeme.kind? (e.row s ++ rs)).map TokenKind.isNumber).getD false = e.startsNumber
  | .literal value, s, rs => isNumber_row_literal value s rs
  | .ident name, s, rs => by
    rcases Parser.kind_nameLexeme s name with h | h <;>
      simp [Expr.row, Expr.startsNumber, h, TokenKind.isNumber]
  | .call name as range, s, rs => rfl
  | .unary op operand, s, rs => by cases op <;> rfl
  | .binary op lhs rhs, s, rs => by
    rw [Expr.row, List.append_assoc, List.append_assoc, Expr.isNumber_row lhs]
    rfl
  | .paren inner, s, rs => rfl

theorem startsMinusNumber_minus_append {ls : List Lexeme} {s : Bool} (hs : ∀ l ∈ ls.head?, l.spaced = false) :
    startsMinusNumber (.ofChar '-' s :: ls) =
      ((Lexeme.kind? ls).map TokenKind.isNumber).getD false := by
  cases ls with
  | nil => rfl
  | cons l ls => simp [startsMinusNumber, ofChar, single, hs l rfl]

/-- Written, an expression starts with a minus that touches a number if it says so. -/
theorem Expr.startsMinusNumber_row {v : Vocabulary} : (e : Expr) → {j : Bool} → e.Grammatical v j →
    (s : Bool) → (rs : List Lexeme) → startsMinusNumber (e.row s ++ rs) = true →
    e.startsNegative = true
  | .literal value, j, hg, s, rs, h => by
    rw [Expr.startsNegative]
    rw [Expr.row, Literal.row, withMinus] at h
    cases hneg : value.isNegative with
    | true => rfl
    | false =>
      rw [hneg, if_neg Bool.false_ne_true, List.singleton_append,
        startsMinusNumber_cons_of_ne (by cases value <;> simp [Literal.magnitude])] at h
      exact Bool.noConfusion h
  | .ident name, j, hg, s, rs, h => by
    rw [Expr.row, List.singleton_append, startsMinusNumber_cons_of_ne (by
      rcases Parser.kind_nameLexeme s name with h | h <;> simp [h])] at h
    exact Bool.noConfusion h
  | .call name as range, j, hg, s, rs, h => by
    rw [Expr.row, List.cons_append, startsMinusNumber_cons_of_ne (by simp)] at h
    exact Bool.noConfusion h
  | .unary op operand, j, hg, s, rs, h => by
    obtain ⟨kind, text, ls, hrow, -⟩ := operand.row_eq_cons hg.2 false
    cases op with
    | plus =>
      rw [Expr.row, List.cons_append, startsMinusNumber_cons_of_ne (by
        simp [UnaryOp.lexeme, ofChar, single])] at h
      exact Bool.noConfusion h
    | minus =>
      rw [Expr.startsNegative, ← Expr.isNumber_row operand false rs]
      rw [Expr.row, List.cons_append] at h
      have htouches : ∀ l ∈ (operand.row false ++ rs).head?, l.spaced = false := by
        rw [hrow]
        rintro _ ⟨⟩
        rfl
      have hminus := startsMinusNumber_minus_append (s := s) htouches
      rw [← hminus]
      exact h
  | .binary op lhs rhs, j, hg, s, rs, h => by
    rw [Expr.row, List.append_assoc, List.append_assoc] at h
    exact Expr.startsMinusNumber_row lhs hg.2.1 s _ h
  | .paren inner, j, hg, s, rs, h => by
    rw [Expr.row, List.cons_append, startsMinusNumber_cons_of_ne (by simp [ofChar, single])] at h
    exact Bool.noConfusion h

/-! ### Items -/

namespace ItemParser

variable {α : Type} {v : Vocabulary} {levels : Nat} {c c' : Cursor}

/-- An item that is written as the row. -/
structure EchoKind (k : ItemKind) (row : Bool → List Lexeme) (c c' : Cursor) : Prop extends
    Echo Alike k.render row c c' where
  minus : ∀ s rs, Follows c'.lexemes rs → startsMinusNumber (row s ++ rs) = true →
    k.startsNegative = true

/-- At the row, `p` gives `a` again without a report and stops behind it. -/
def ReadsAgain (w : Writing α) (p : ItemParser (Option α)) (a : α) (row : Bool → List Lexeme)
    (c' : Cursor) : Prop :=
  ∀ s rs d, Follows c'.lexemes rs → (w.isOpen a = true → startsMinusNumber rs = false) →
    d.lexemes = row s ++ rs → ∃ b d', Runs p d (some b) d' ∧ w.bare b = w.bare (w.folded a) ∧
      d'.lexemes = rs

/-- What `p` reads at `c` without a report can be written and, if items in it are separate, is read
again. -/
def EchoesKind (p : ItemParser (Option ItemKind)) (c : Cursor) : Prop :=
  ∀ o c', Runs p c o c' → ∃ k row, o = some k ∧ EchoKind k row c c' ∧
    (k.AllSeparate → ReadsAgain .kind p k row c')

/-- The same for items with their places. -/
def EchoesItem (p : ItemParser (Option Item)) (c : Cursor) : Prop :=
  ∀ o c', Runs p c o c' → ∃ i row, o = some i ∧ EchoKind i.kind row c c' ∧
    (i.kind.AllSeparate → ReadsAgain .item p i row c')

theorem retains_locate (o : Option ItemKind) (start : Nat) : Retains (match o with
    | some k => do return some ⟨k, ⟨start, (← cursor).lastEnd⟩⟩
    | none => return none : ItemParser (Option Item)) := by
  cases o with
  | none => exact .pure _
  | some k => exact .bind .cursor fun _ => .pure _

theorem runs_located {p : ItemParser (Option ItemKind)} {k : ItemKind} (h : Runs p c (some k) c') :
    ∃ range, Runs (located p) c (some ⟨k, range⟩) c' :=
  ⟨⟨c.here.start, c'.lastEnd⟩, runs_cursor_bind.2 (h.bind rfl)⟩

theorem echoesItem_located {p : ItemParser (Option ItemKind)} (h : EchoesKind p c) :
    EchoesItem (located p) c := by
  intro o c' hrun
  unfold located at hrun
  rw [runs_cursor_bind] at hrun
  obtain ⟨o', c₁, hkind, hrun⟩ := hrun.of_bind fun o => retains_locate o _
  obtain ⟨k, row, rfl, hecho, hreads⟩ := h o' c₁ hkind
  cases hrun
  refine ⟨_, row, rfl, hecho, fun hsep s rs d hrs hopen hd => ?_⟩
  obtain ⟨b, d', hrun', hb, hd'⟩ := hreads hsep s rs d hrs hopen hd
  obtain ⟨range, hrun''⟩ := runs_located hrun'
  exact ⟨_, d', hrun'', congrArg (fun k => Item.mk k (.emptyAt 0)) hb, hd'⟩

/-- What a parser of tokens reads is read again as an item. -/
theorem readsAgain_lift {p : Parser α} {f : α → ItemKind} {k : ItemKind} {row : Bool → List Lexeme}
    (h : Parser.ReadsBack .kind (do return f (← p)) k row c') :
    ReadsAgain .kind (do return some (f (← p))) k row c' := by
  intro s rs d hrs hopen hd
  obtain ⟨b, d', hrun, hb, hd'⟩ := h s rs d hrs hopen hd
  obtain ⟨a, d₁, ha, hrun⟩ := Parser.ok_of_bind hrun
  cases hrun
  exact ⟨_, d', (runs_lift.2 ha).bind rfl, hb, hd'⟩

theorem echoesKind_lift {p : Parser α} {f : α → ItemKind} {kind : TokenKind}
    (h : Parser.Echoes .kind (do return f (← p)) c) (hk : Lexeme.kind? c.lexemes = some kind)
    (hn : kind.isNumber = false) (hs : kind ≠ .operator .sub) :
    EchoesKind (do return some (f (← p))) c := by
  intro o c' hrun
  obtain ⟨a, c₁, ha, hrun⟩ := hrun.of_bind fun _ => .pure _
  cases hrun
  have hrun' : (do return f (← p) : Parser ItemKind) c = .ok (f a) c' := by
    rw [Parser.bind_of_ok (runs_lift.1 ha)]
    rfl
  obtain ⟨row, hecho, hreads⟩ := h _ c' hrun'
  refine ⟨_, row, rfl, ⟨hecho, fun s rs hrs hm => ?_⟩, fun _ => readsAgain_lift hreads⟩
  rw [(hecho.start s rs hrs).startsMinusNumber hk hn hs] at hm
  exact Bool.noConfusion hm

/-- **An expression**, which may start with a minus. -/
theorem echoesKind_expr (hc : c.FromText) :
    EchoesKind (do return some (.expr (← Parser.expression v levels false))) c := by
  intro o c' hrun
  obtain ⟨e, c₁, he, hrun⟩ := hrun.of_bind fun _ => .pure _
  cases hrun
  have he := runs_lift.1 he
  obtain ⟨hparsed, -, -⟩ := Parser.ensures_expression hc.genuine levels e c' he
  have hrun' : (do return .expr (← Parser.expression v levels false) : Parser ItemKind) c =
      .ok (.expr e) c' := by
    rw [Parser.bind_of_ok he]
    rfl
  obtain ⟨row, hecho, hreads⟩ := Parser.echoes_exprItem hc _ c' hrun'
  refine ⟨_, row, rfl, ⟨hecho, fun s rs _ hm => ?_⟩, fun _ => readsAgain_lift hreads⟩
  rw [hecho.prints.row_eq (e.prints hparsed.grammatical)] at hm
  exact e.startsMinusNumber_row hparsed.grammatical s rs hm

/-! ### Rows of items -/

/-- The items are written as the row, each with space before it. -/
def PrintsAll : List Item → List Lexeme → Prop
  | [], ls => ls = []
  | i :: is, ls => ∃ row ls', Prints i.render row ∧ PrintsAll is ls' ∧ ls = row true ++ ls'

theorem PrintsAll.trails {is : List Item} {ls : List Lexeme} (h : PrintsAll is ls) :
    Trails (Item.renderSpaced is) ls := by
  induction is generalizing ls with
  | nil =>
    rw [show ls = [] from h]
    exact Trails.nil
  | cons i is ih =>
    obtain ⟨row, ls', hprints, his, rfl⟩ := h
    have hfirst : Trails (" " ++ i.render) (row true) := hprints.blank (c := ' ') rfl
    exact hfirst.append (ih his)

/-- What has been read from `c` to `c'` is written as the row `ls`. -/
structure EchoAll (is : List Item) (ls : List Lexeme) (c c' : Cursor) : Prop where
  suffix : c'.lexemes <:+ c.lexemes
  prints : PrintsAll is ls
  follows : ∀ rs, Follows c'.lexemes rs → Follows c.lexemes (ls ++ rs)
  minus : ∀ rs, Follows c'.lexemes rs → ∀ i ∈ is.head?, startsMinusNumber (ls ++ rs) = true →
    i.kind.startsNegative = true

theorem EchoAll.nil (c : Cursor) : EchoAll [] [] c c :=
  ⟨List.suffix_refl _, rfl, fun _ h => h, fun _ _ _ h => by cases h⟩

theorem EchoAll.cons {i : Item} {row : Bool → List Lexeme} {is : List Item} {ls : List Lexeme}
    {c c₁ c' : Cursor} (h : EchoKind i.kind row c c₁) (h' : EchoAll is ls c₁ c') :
    EchoAll (i :: is) (row true ++ ls) c c' where
  suffix := h'.suffix.trans h.passes.suffix
  prints := ⟨row, ls, i.render_eq ▸ h.prints, h'.prints, rfl⟩
  follows rs hrs := by
    rw [List.append_assoc]
    exact h.toEcho.follows (h'.follows rs hrs)
  minus rs hrs j hj hm := by
    cases hj
    rw [List.append_assoc] at hm
    exact h.minus true _ (h'.follows rs hrs) hm

/-- At the row, `p` gives the items again without a report and stops behind them. -/
def ReadsAllAgain (p : StateM Reading (List Item)) (is : List Item) (ls : List Lexeme) (c' : Cursor)
    (d : Cursor) : Prop :=
  ∀ rs, Follows c'.lexemes rs → (Item.endsOpen is = true → startsMinusNumber rs = false) →
    d.lexemes = ls ++ rs → ∃ js d', RunsAll p d js d' ∧
      Item.bareAll js = Item.bareAll (Item.foldSignsAll is) ∧ d'.lexemes = rs

/-- What `p` reads without a report can be written and, if the items are separate, is read again. -/
def EchoesAll (p : StateM Reading (List Item)) : Prop :=
  ∀ c : Cursor, c.FromText → ∀ is c', RunsAll p c is c' → ∃ ls, EchoAll is ls c c' ∧
    (Item.AllSeparate is → ∀ d, ReadsAllAgain p is ls c' d)

/-! ### Loops -/

/-- The loop reads items with `one` until it is done. -/
structure Loop (one : ItemParser (Option Item)) (done : Cursor → Prop)
    (loop : Nat → StateM Reading (List Item)) : Prop where
  nil : ∀ {c : Cursor}, c.lexemes = [] → done c
  alike : ∀ {c d : Cursor}, Alike c.lexemes d.lexemes → (done c ↔ done d)
  stop : ∀ {c : Cursor}, done c → ∀ limit, RunsAll (loop limit) c [] c
  first : ∀ {limit} {c c' : Cursor} {is}, ¬done c → RunsAll (loop (limit + 1)) c is c' →
    ∃ o c₁, Runs one c o c₁
  step : ∀ {i limit} {c c₁ : Cursor}, ¬done c → Runs one c (some i) c₁ → c.Passes c₁ →
    loop (limit + 1) ⟨c, []⟩ = (i :: (loop limit ⟨c₁, []⟩).1, (loop limit ⟨c₁, []⟩).2)

theorem separate_of_cons {i : Item} {is : List Item} (h : Item.AllSeparate (i :: is)) :
    i.kind.AllSeparate ∧ Item.AllSeparate is ∧
      (i.isOpen = true → ∀ j ∈ is.head?, j.kind.startsNegative = false) := by
  obtain ⟨⟨hopen, hsep⟩, hall⟩ := h
  obtain ⟨hi, his⟩ := hall
  obtain ⟨kind, range⟩ := i
  rw [Item.Everywhere] at hi
  exact ⟨hi, ⟨hsep, his⟩, hopen⟩

/-- **The items that a loop reads are read again.** -/
theorem Loop.echoes {one : ItemParser (Option Item)} {done : Cursor → Prop}
    {loop : Nat → StateM Reading (List Item)} (hloop : Loop one done loop)
    (hone : ∀ c : Cursor, c.FromText → ¬done c → EchoesItem one c) (limit : Nat) {c : Cursor}
    (hc : c.FromText) (hlimit : c.lexemes.length ≤ limit) {is : List Item} {c' : Cursor}
    (hrun : RunsAll (loop limit) c is c') : ∃ ls, EchoAll is ls c c' ∧
      (Item.AllSeparate is → ∀ limit d, d.lexemes.length ≤ limit →
        ReadsAllAgain (loop limit) is ls c' d) := by
  have hdone : ∀ {is : List Item} {limit : Nat} {c c' : Cursor}, done c → RunsAll (loop limit) c is c' →
      ∃ ls, EchoAll is ls c c' ∧ (Item.AllSeparate is → ∀ limit d, d.lexemes.length ≤ limit →
        ReadsAllAgain (loop limit) is ls c' d) := by
    intro is limit c c' hd hrun
    have heq := (hloop.stop hd limit).symm.trans hrun
    cases heq
    exact ⟨[], .nil c, fun _ limit d _ rs hrs _ hrow =>
      ⟨[], d, hloop.stop ((hloop.alike (hrow ▸ hrs.alike)).1 hd) limit, rfl, hrow⟩⟩
  induction limit generalizing c is with
  | zero => exact hdone (hloop.nil (List.length_eq_zero_iff.1 (Nat.le_zero.1 hlimit))) hrun
  | succ limit ih =>
    by_cases hd : done c
    · exact hdone hd hrun
    · obtain ⟨o, c₁, hfirst⟩ := hloop.first hd hrun
      obtain ⟨i, row, rfl, hecho, hreads⟩ := hone c hc hd o c₁ hfirst
      have hstep := (hloop.step hd hfirst hecho.passes).symm.trans hrun
      obtain ⟨js, r, hrest⟩ : ∃ js r, loop limit ⟨c₁, []⟩ = (js, r) := ⟨_, _, rfl⟩
      rw [hrest] at hstep
      cases hstep
      obtain ⟨ls, hall, hagain⟩ := ih (hc.of_passes hecho.passes) (by
        have := hecho.passes.shorter
        omega) hrest
      refine ⟨_, .cons hecho hall, fun hsep limit d hlength rs hrs hopen hrow => ?_⟩
      obtain ⟨hkind, hseps, hneg⟩ := separate_of_cons hsep
      rw [List.append_assoc] at hrow
      have hfollows := hall.follows rs hrs
      have hopen' : Writing.item.isOpen i = true → startsMinusNumber (ls ++ rs) = false := by
        intro hi
        cases js with
        | nil =>
          rw [show ls = [] from hall.prints, List.nil_append]
          exact hopen hi
        | cons j js =>
          rw [← Bool.not_eq_true]
          intro hm
          have := hneg hi j rfl
          rw [hall.minus rs hrs j rfl hm] at this
          exact Bool.noConfusion this
      obtain ⟨b, d₁, hrun₁, hb, hd₁⟩ := hreads hkind true _ d hfollows hopen' hrow
      have hshort : d.Passes d₁ := by
        obtain ⟨l, ls', hcons, -⟩ := hecho.prints.head true
        refine ⟨?_, ?_⟩
        · rw [hd₁, hrow]
          exact List.suffix_append _ _
        · rw [hd₁, hrow, hcons]
          simp only [List.cons_append, List.length_cons, List.length_append]
          omega
      have hnot : ¬done d := by
        rw [← hloop.alike (hrow ▸ (hecho.toEcho.follows hfollows).alike)]
        exact hd
      cases limit with
      | zero =>
        have := hshort.shorter
        omega
      | succ limit =>
        obtain ⟨bs, d', hrun', hbs, hd'⟩ := hagain hseps limit d₁ (by
          have := hshort.shorter
          omega) rs hrs (fun h => hopen (by
            cases js with
            | nil => exact Bool.noConfusion h
            | cons j js => exact h)) hd₁
        refine ⟨b :: bs, d', (hloop.step hnot hrun₁ hshort).trans ?_, congrArg₂ List.cons hb hbs, hd'⟩
        rw [show loop limit ⟨d₁, []⟩ = _ from hrun']

end ItemParser

end ControlFile
