import ControlFile.Proofs.Expr.Climbing
import ControlFile.Proofs.Item.Reader
import ControlFile.Proofs.Token.Consumption

/-!
# The machine follows the parsers

`Reader.Follows x n m p` says that the run `m` of the machine ends at `x` with what the parser `p`
comes to and with the registers of `x`, and that reading has gone on, over at least `n` tokens if it
has succeeded.  It is closed under sequencing (`Follows.bind_add`), so each function of the machine
needs one lemma, which follows its text.

Three things need an argument.  A level that is opened is closed again (`Follows.nested`).  A loop
goes round no more often than there are tokens ahead, as each round takes one: the limit that the loop
of the parser has is never met.  And the machine climbs the levels of operations, where the parser has a
loop for each of them (`parses_operations`).
-/

namespace ControlFile

/-! ### Going on -/

/-- From `c` reading goes on to `c'`, over at least `n` tokens. -/
def Cursor.GoesOn (n : Nat) (c c' : Cursor) : Prop := ∃ ts, c.Moves ts c' ∧ n ≤ ts.length

namespace Cursor.GoesOn

variable {n m : Nat} {c c' c'' : Cursor}

theorem refl (c : Cursor) : GoesOn 0 c c := ⟨[], .refl c, Nat.le_refl 0⟩

theorem weaken (h : GoesOn n c c') : GoesOn 0 c c' := h.imp fun _ h => ⟨h.1, Nat.zero_le _⟩

theorem trans (h : GoesOn n c c') (h' : GoesOn m c' c'') : GoesOn (n + m) c c'' := by
  obtain ⟨ts, hts, hn⟩ := h
  obtain ⟨us, hus, hm⟩ := h'
  exact ⟨ts ++ us, hts.trans hus, by rw [List.length_append]; omega⟩

theorem length (h : GoesOn n c c') : c'.rest.length + n ≤ c.rest.length := by
  obtain ⟨ts, hts, hn⟩ := h
  have := hts.length_rest
  omega

/-- Also at the end of the text, where it stays, reading goes on. -/
theorem advance (c : Cursor) : GoesOn 0 c c.advance := by
  obtain ⟨ts, hts⟩ := Moves.exists_advance c
  exact ⟨ts, hts, Nat.zero_le _⟩

theorem advance_token {t : Token} {ts : List Token} (h : c.rest = t :: ts) :
    GoesOn 1 c c.advance := ⟨[t], .advance h, Nat.le_refl 1⟩

theorem advance_kind {k : TokenKind} (h : c.kind? = some k) : GoesOn 1 c c.advance := by
  obtain ⟨t, ts, hrest, -⟩ := exists_cons h
  exact advance_token hrest

end Cursor.GoesOn

section Goes

variable {σ α β : Type} {place : σ → Cursor} {n k : Nat} {p : EStateM Diagnostic σ α}
  {f : α → EStateM Diagnostic σ β} {s s' : σ}

/-- At `s` the parser goes on, and over at least `n` tokens if it succeeds.  The cursor is at
`place s`. -/
def Goes (place : σ → Cursor) (n : Nat) (p : EStateM Diagnostic σ α) (s : σ) : Prop :=
  match p s with
  | .ok _ s' => (place s).GoesOn n (place s')
  | .error _ s' => (place s).GoesOn 0 (place s')

namespace Goes

theorem of_ok {a : α} (h : Goes place n p s) (hp : p s = .ok a s') :
    (place s).GoesOn n (place s') := by
  unfold Goes at h
  rwa [hp] at h

theorem of_error {d : Diagnostic} (h : Goes place n p s) (hp : p s = .error d s') :
    (place s).GoesOn 0 (place s') := by
  unfold Goes at h
  rwa [hp] at h

theorem weaken (h : Goes place n p s) : Goes place 0 p s := by
  unfold Goes at h ⊢
  split at h
  · exact h.weaken
  · exact h

theorem pure (a : α) : Goes place 0 (Pure.pure a) s := .refl _

theorem bind_add (h : Goes place n p s)
    (hf : ∀ a s', p s = .ok a s' → (place s).GoesOn n (place s') → Goes place k (f a) s') :
    Goes place (n + k) (p >>= f) s := by
  unfold Goes
  change match EStateM.bind p f s with
    | .ok _ s' => _
    | .error _ s' => _
  rw [EStateM.bind]
  cases hp : p s with
  | ok a s' =>
    have hgoes := h.of_ok hp
    have hnext := hf a s' hp hgoes
    dsimp only
    cases hf' : f a s' with
    | ok b s'' => exact hgoes.trans (hnext.of_ok hf')
    | error d s'' => exact (hgoes.trans (hnext.of_error hf')).weaken
  | error d s' => exact h.of_error hp

theorem bind (h : Goes place n p s)
    (hf : ∀ a s', (place s).GoesOn n (place s') → Goes place 0 (f a) s') :
    Goes place n (p >>= f) s := h.bind_add fun a s' _ => hf a s'

theorem get_bind {f : σ → EStateM Diagnostic σ β} (h : Goes place n (f s) s) :
    Goes place n (get >>= f) s := h

theorem ite {b : Prop} [Decidable b] {p' : EStateM Diagnostic σ α} (h : b → Goes place n p s)
    (h' : ¬b → Goes place n p' s) : Goes place n (if b then p else p') s := by
  split
  · exact h ‹_›
  · exact h' ‹_›

end Goes

end Goes

/-! ### Parsers of a few tokens -/

namespace Parser

variable {α : Type} {n : Nat} {c : Cursor}

theorem goes_fail (fault : Fault) : Goes id n (fail fault : Parser α) c := .refl c

theorem goes_failAt (range : Extent) (fault : Fault) :
    Goes id n (failAt range fault : Parser α) c := .refl c

theorem goes_failExpected (what : Expected) : Goes id n (failExpected what : Parser α) c := .refl c

theorem goes_advance : Goes id 0 advance c := .advance c

theorem goes_takeIf (k : TokenKind) : Goes id 0 (takeIf k) c := by
  unfold Goes takeIf
  cases h : c.isAt k with
  | true => exact (Cursor.GoesOn.advance_kind (Cursor.isAt_iff.1 h)).weaken
  | false => exact .refl c

theorem goes_expect (k : TokenKind) (what : Expected) : Goes id 1 (expect k what) c := by
  unfold Goes expect
  cases h : c.isAt k with
  | true => exact .advance_kind (Cursor.isAt_iff.1 h)
  | false => exact .refl c

theorem goes_takeText : Goes id 0 takeText c := .advance c

theorem goes_takeText_kind {k : TokenKind} (h : c.kind? = some k) : Goes id 1 takeText c :=
  .advance_kind h

theorem goes_literal (negative : Bool) : Goes id 1 (literal negative) c := by
  unfold Goes literal
  cases hrest : c.rest with
  | nil => exact .refl c
  | cons t ts =>
    dsimp only
    cases t.literal negative with
    | ok value => exact .advance_token hrest
    | error fault => exact .refl c

theorem goes_signedLiteral? : Goes id 0 signedLiteral? c := by
  refine .get_bind ?_
  refine .ite (fun _ => goes_advance.bind fun _ _ _ => (goes_literal true).weaken.bind fun _ _ _ =>
    .pure _) fun _ => ?_
  refine .ite (fun _ => ?_) fun _ => ?_
  · exact (goes_literal false).weaken.bind fun _ _ _ => .pure _
  · exact .pure _

theorem goes_refinement : Goes id 0 refinement c := by
  refine (goes_takeIf _).bind fun _ _ _ => ?_
  refine .ite (fun _ => .pure _) fun _ => ?_
  refine (goes_takeIf _).bind fun _ _ _ => ?_
  exact .ite (fun _ => .pure _) fun _ => .pure _

theorem goes_parameterName? (v : Vocabulary) : Goes id 0 (parameterName? v) c := by
  exact .get_bind (.ite (fun _ => goes_takeText.bind fun _ _ _ => .pure _) fun _ => .pure _)

theorem goes_literalValue : Goes id 0 literalValue c :=
  goes_signedLiteral?.bind fun value _ _ => by cases value <;> exact .pure _

theorem goes_markedParameter (v : Vocabulary) : Goes id 0 (markedParameter v) c := by
  refine goes_refinement.bind fun _ _ _ => ?_
  refine (goes_parameterName? v).bind fun _ _ _ => ?_
  exact goes_literalValue.bind fun _ _ _ => .pure _

theorem goes_uncertainty : Goes id 0 uncertainty c := by
  refine .get_bind (.ite (fun _ => goes_takeText.bind fun _ _ _ => .pure _) fun _ => ?_)
  refine goes_signedLiteral?.bind fun value _ _ => ?_
  rcases value with - | (n | x | text)
  · exact goes_fail _
  · exact .pure _
  · exact .pure _
  · exact goes_fail _

theorem goes_name (role : NameRole) : Goes id 0 (name role) c :=
  .get_bind (.ite (fun _ => goes_takeText) fun _ => goes_failExpected _)

theorem goes_freeWord? (starts : TokenKind → Bool) : Goes id 0 (freeWord? starts) c := by
  unfold Goes freeWord?
  cases hrest : c.rest with
  | nil => exact .refl c
  | cons t ts =>
    by_cases hunique : t.kind = .directive .unique
    · simp only [if_pos hunique]
      exact .advance c
    · cases hstarts : starts t.kind with
      | true =>
        simp only [if_neg hunique, hstarts, if_true]
        exact (Cursor.GoesOn.advance c).trans ⟨_, .skipWhile continuesWord _, Nat.zero_le _⟩
      | false =>
        simp only [if_neg hunique, hstarts]
        exact .refl c

theorem goes_argumentTest : Goes id 0 argumentTest c := by
  refine .get_bind ?_
  split
  · exact goes_advance.bind fun _ _ _ => .pure _
  · exact goes_takeText.bind fun _ _ _ => .pure _
  · exact goes_failExpected _

theorem goes_includePath : Goes id 0 includePath c := by
  refine .get_bind ?_
  refine .ite (fun _ => ?_) fun _ => ?_
  · exact goes_takeText.bind fun _ _ _ => .pure _
  · exact goes_failExpected _

end Parser

/-! ### Following a parser -/

namespace Reader

variable {α β : Type} {n k : Nat} {x : Reader}

/-- How many levels are left. -/
def levels (x : Reader) : Nat := maxNesting - x.nesting

/-- Whether a body of a macro is open. -/
def isInMacro (x : Reader) : Bool := 0 < x.macroDepth

/-- How many tokens are ahead. -/
def ahead (x : Reader) : Nat := x.reading.cursor.rest.length

/-- The reader, with the same registers, where reading stands elsewhere. -/
def resume (x : Reader) (reading : Reading) : Reader := { x with reading }

def moveTo (x : Reader) (cursor : Cursor) : Reader := x.resume { x.reading with cursor }

/-- What a parser comes to that is run at `x`. -/
def finish (x : Reader) : EStateM.Result Diagnostic Reading α → Except Diagnostic α × Reader
  | .ok a r => (.ok a, x.resume r)
  | .error d r => (.error d, x.resume r)

/-- The machine ends with what the parser comes to, and reading goes on. -/
structure Follows (x : Reader) (n : Nat) (m : Grammar α) (p : ItemParser α) : Prop where
  run : m x = some (x.finish (p x.reading))
  goes : Goes Reading.cursor n p x.reading

/-- The same for a parser of tokens. -/
def Parses (x : Reader) (n : Nat) (m : Grammar α) (p : Parser α) : Prop :=
  Follows x n m (liftM p)

theorem bind_of_ok {m : Grammar α} {f : α → Grammar β} {y : Reader} {a : α}
    (h : m x = some (.ok a, y)) : (m >>= f) x = f a y := by
  change (m x).bind _ = _
  rw [h]
  rfl

theorem bind_of_error {m : Grammar α} {f : α → Grammar β} {y : Reader} {d : Diagnostic}
    (h : m x = some (.error d, y)) : (m >>= f) x = some (.error d, y) := by
  change (m x).bind _ = _
  rw [h]
  rfl

namespace Follows

variable {m m' : Grammar α} {p p' : ItemParser α} {f : α → Grammar β} {g : α → ItemParser β}

theorem weaken (h : Follows x n m p) : Follows x 0 m p := ⟨h.run, h.goes.weaken⟩

theorem pure (a : α) : Follows x 0 (Pure.pure a) (Pure.pure a) := ⟨rfl, .pure a⟩

/-- A step over `n` tokens, and what follows it, over `k`. -/
theorem bind_add (h : Follows x n m p)
    (hf : ∀ a r, p x.reading = .ok a r → x.reading.cursor.GoesOn n r.cursor →
      Follows (x.resume r) k (f a) (g a)) :
    Follows x (n + k) (m >>= f) (p >>= g) := by
  refine ⟨?_, h.goes.bind_add fun a r hp hgoes => (hf a r hp hgoes).goes⟩
  have hrun := h.run
  change _ = some (x.finish (EStateM.bind p g x.reading))
  rw [EStateM.bind]
  cases hp : p x.reading with
  | ok a r =>
    rw [hp] at hrun
    rw [bind_of_ok hrun, (hf a r hp (h.goes.of_ok hp)).run]
    dsimp only [resume]
    cases g a r <;> rfl
  | error d r =>
    rw [hp] at hrun
    rw [bind_of_error hrun]
    rfl

theorem bind (h : Follows x n m p)
    (hf : ∀ a r, x.reading.cursor.GoesOn n r.cursor → Follows (x.resume r) 0 (f a) (g a)) :
    Follows x n (m >>= f) (p >>= g) := h.bind_add fun a r _ => hf a r

theorem ite {b : Prop} [Decidable b] (h : b → Follows x n m p) (h' : ¬b → Follows x n m' p') :
    Follows x n (if b then m else m') (if b then p else p') := by
  split
  · exact h ‹_›
  · exact h' ‹_›

theorem cursor_bind {f : Cursor → Grammar β} {g : Cursor → ItemParser β}
    (h : Follows x n (f x.reading.cursor) (g x.reading.cursor)) :
    Follows x n (cursor >>= f) (ItemParser.cursor >>= g) := ⟨h.run, h.goes⟩

/-- A parser that looks at no register. -/
theorem lift {p : ItemParser α} (h : Goes Reading.cursor n p x.reading) :
    Follows x n (liftM p) p := by
  refine ⟨?_, h⟩
  change (match p x.reading with
    | .ok a reading => some (Except.ok a, x.resume reading)
    | .error d reading => some (Except.error d, x.resume reading)) = _
  cases p x.reading <;> rfl

end Follows

namespace Parses

variable {m m' : Grammar α} {p p' : Parser α} {f : α → Grammar β} {g : α → Parser β}

theorem lift_apply (p : Parser α) (r : Reading) :
    (liftM p : ItemParser α) r = match p r.cursor with
      | .ok a c => .ok a { r with cursor := c }
      | .error d c => .error d { r with cursor := c } := rfl

theorem lift_bind (p : Parser α) (g : α → Parser β) :
    (liftM (p >>= g) : ItemParser β) = liftM p >>= fun a => liftM (g a) := by
  funext r
  change _ = EStateM.bind (liftM p) (fun a => liftM (g a)) r
  rw [EStateM.bind, lift_apply, lift_apply]
  cases hp : p r.cursor with
  | ok a c => rw [Parser.bind_of_ok hp]; rfl
  | error d c => rw [Parser.bind_of_error hp]

theorem pure (a : α) : Parses x 0 (Pure.pure a) (Pure.pure a) := Follows.pure a

/-- A parser of tokens goes on where items are read just as it does by itself. -/
theorem goes_liftM {r : Reading} :
    Goes Reading.cursor n (liftM p : ItemParser α) r ↔ Goes id n p r.cursor := by
  unfold Goes
  rw [lift_apply]
  cases p r.cursor <;> rfl

/-- A parser that looks at no register. -/
theorem lift (h : Goes id n p x.reading.cursor) : Parses x n (liftM p) p :=
  Follows.lift (goes_liftM.2 h)

theorem weaken (h : Parses x n m p) : Parses x 0 m p := Follows.weaken h

theorem goesOn (h : Parses x n m p) : Goes id n p x.reading.cursor := goes_liftM.1 (Follows.goes h)

/-- A parser that comes to the same at the cursor is followed, too. -/
theorem congr (hp : p x.reading.cursor = p' x.reading.cursor) (h : Parses x n m p') :
    Parses x n m p := by
  have hlift : (liftM p : ItemParser α) x.reading = (liftM p' : ItemParser α) x.reading := by
    rw [lift_apply, lift_apply, hp]
  refine ⟨?_, ?_⟩
  · rw [hlift]
    exact h.run
  · have hgoes := Follows.goes h
    unfold Goes at hgoes ⊢
    rwa [hlift]

theorem bind_add (h : Parses x n m p)
    (hf : ∀ a c, p x.reading.cursor = .ok a c → x.reading.cursor.GoesOn n c →
      Parses (x.moveTo c) k (f a) (g a)) :
    Parses x (n + k) (m >>= f) (p >>= g) := by
  unfold Parses
  rw [lift_bind]
  refine Follows.bind_add h fun a r hr hgoes => ?_
  rw [lift_apply] at hr
  cases hp : p x.reading.cursor with
  | ok b c =>
    rw [hp] at hr
    cases hr
    exact hf a c hp hgoes
  | error d c =>
    rw [hp] at hr
    cases hr

theorem bind (h : Parses x n m p)
    (hf : ∀ a c, x.reading.cursor.GoesOn n c → Parses (x.moveTo c) 0 (f a) (g a)) :
    Parses x n (m >>= f) (p >>= g) := h.bind_add fun a c _ => hf a c

theorem andThen (h : Parses x 0 m p)
    (hf : ∀ a c, x.reading.cursor.GoesOn 0 c → Parses (x.moveTo c) n (f a) (g a)) :
    Parses x n (m >>= f) (p >>= g) := Nat.zero_add n ▸ h.bind_add fun a c _ => hf a c

/-- A result is put into another. -/
theorem map (f : α → β) (h : Parses x n m p) :
    Parses x n (do return f (← m)) (do return f (← p)) := h.bind fun a _ _ => pure (f a)

theorem get_bind {f : Cursor → Grammar β} {g : Cursor → Parser β}
    (h : Parses x n (f x.reading.cursor) (g x.reading.cursor)) :
    Parses x n (cursor >>= f) (get >>= g) := ⟨h.run, h.goes⟩

/-- The machine looks ahead, and the parser does not. -/
theorem cursor_bind {f : Cursor → Grammar α} (h : Parses x n (f x.reading.cursor) p) :
    Parses x n (cursor >>= f) p := ⟨h.run, h.goes⟩

theorem inMacro_bind {f : Bool → Grammar α} (h : Parses x n (f x.isInMacro) p) :
    Parses x n (inMacro >>= f) p := ⟨h.run, h.goes⟩

/-- The parser asks for the limit of a loop; the machine does not. -/
theorem limit_bind {g : Cursor → Parser α} (h : Parses x n m (g x.reading.cursor)) :
    Parses x n m (get >>= g) := ⟨h.run, h.goes⟩

theorem ite {b : Prop} [Decidable b] (h : b → Parses x n m p) (h' : ¬b → Parses x n m' p') :
    Parses x n (if b then m else m') (if b then p else p') := by
  split
  · exact h ‹_›
  · exact h' ‹_›

/-- A token that is taken counts. -/
theorem takeIf_bind {kind : TokenKind} {f : Bool → Grammar β} {g : Bool → Parser β}
    (htrue : ∀ c, x.reading.cursor.GoesOn 1 c → Parses (x.moveTo c) 0 (f true) (g true))
    (hfalse : Parses x 0 (f false) (g false)) :
    Parses x 0 (liftM (Parser.takeIf kind) >>= f) (Parser.takeIf kind >>= g) := by
  refine bind_add (n := 0) (k := 0) (lift (Parser.goes_takeIf kind)) fun a c hrun _ => ?_
  rw [Parser.takeIf] at hrun
  split at hrun
  · rename_i hat
    cases hrun
    exact htrue _ (.advance_kind (Cursor.isAt_iff.1 hat))
  · cases hrun
    exact hfalse

/-- At the end of the text no token is taken. -/
theorem takeIf_end {kind : TokenKind} {f : Bool → Grammar α} (hend : x.ahead = 0)
    (hfalse : Parses x n (f false) p) : Parses x n (liftM (Parser.takeIf kind) >>= f) p := by
  refine ⟨(bind_of_ok ?_).trans hfalse.run, hfalse.goes⟩
  have hrest : x.reading.cursor.rest = [] := List.length_eq_zero_iff.1 hend
  have hat : Parser.takeIf kind x.reading.cursor = .ok false x.reading.cursor := by
    rw [Parser.takeIf, Cursor.isAt, Cursor.kind?, Cursor.peek?, hrest]
    rfl
  have hrun := (lift (n := 0) (Parser.goes_takeIf (c := x.reading.cursor) kind)).run
  rw [hrun, lift_apply, hat]
  rfl

theorem fail (fault : Fault) :
    Parses x n (liftM (Parser.fail fault : Parser α)) (Parser.fail fault) := lift (Parser.goes_fail _)

theorem failExpected (what : Expected) :
    Parses x n (liftM (Parser.failExpected what : Parser α)) (Parser.failExpected what) :=
  lift (Parser.goes_failExpected _)

end Parses

/-! ### Levels -/

/-- The reader with one more level open. -/
def deeper (x : Reader) : Reader := { x with nesting := x.nesting + 1 }

theorem levels_deeper {L : Nat} (hx : x.levels = L + 1) : x.deeper.levels = L := by
  have hdeeper : x.deeper.levels = maxNesting - (x.nesting + 1) := rfl
  unfold levels at hx
  omega

theorem enter_run {L : Nat} (hx : x.levels = L + 1) : enter x = some (.ok (), x.deeper) := by
  have hless : ¬maxNesting ≤ x.nesting := by
    unfold levels at hx
    omega
  change (if maxNesting ≤ x.nesting then _ else _ : Grammar Unit) x = _
  rw [if_neg hless]
  rfl

theorem enter_limit (hx : x.levels = 0) :
    enter x = some (.error ⟨.nestingTooDeep, x.reading.cursor.here⟩, x) := by
  change (if maxNesting ≤ x.nesting then _ else _ : Grammar Unit) x = _
  rw [if_pos (Nat.le_of_sub_eq_zero hx)]
  rfl

/-- A level that is opened is closed again, also where reading fails. -/
theorem Follows.nested {L : Nat} {m : Grammar α} {p : ItemParser α} (hx : x.levels = L + 1)
    (h : Follows x.deeper n m p) : Follows x n (nested m) p := by
  refine ⟨?_, h.goes⟩
  have hrun : p x.deeper.reading = p x.reading := rfl
  change (enter x).bind _ = _
  rw [enter_run hx]
  change (m x.deeper).bind _ = _
  rw [h.run, hrun]
  cases p x.reading <;> rfl

/-- At the limit no level is opened. -/
theorem Follows.nested_limit {m : Grammar α} (hx : x.levels = 0) :
    Follows x n (Reader.nested m) (liftM (Parser.fail .nestingTooDeep : Parser α)) := by
  refine ⟨?_, .refl _⟩
  change (enter x).bind _ = _
  rw [enter_limit hx]
  rfl

/-! ### Expressions -/

section Expressions

variable {v : Vocabulary} {L : Nat} {inner : Parser Expr}

section Inner

variable (hinner : ∀ x : Reader, x.levels = L → Parses x 0 (expression v true) inner)
include hinner

theorem parses_equation (op : AssignOp) (hx : x.levels = L) :
    Parses x 0 (equation v op) (Parser.equation inner op) := by
  rw [equation]
  refine (Parses.lift Parser.goes_advance).bind fun _ c₁ _ => ?_
  refine (hinner (x.moveTo c₁) hx).bind fun body c₂ _ => ?_
  refine (Parses.lift (Parser.goes_expect _ _)).weaken.bind fun _ c₃ _ => ?_
  refine (Parses.lift (Parser.goes_takeIf _)).bind fun colon c₄ _ => ?_
  refine .ite (fun _ => ?_) fun _ => ?_
  · exact (Parses.lift Parser.goes_uncertainty).bind fun u c₅ _ => .pure _
  · exact .pure _

theorem parses_argument (hx : x.levels = L) :
    Parses x 0 (argument v) (Parser.argument v inner) := by
  rw [argument]
  refine .get_bind ?_
  have hparameter := (Parses.lift (x := x) (Parser.goes_markedParameter v)).map Argument.parameter
  have hexpr (k : TokenKind) (found : Found) : Parses x 0
      (if k.startsExpression then (do return .expr (← expression v true))
        else liftM (Parser.fail (.invalidArgument found) : Parser Argument))
      (if k.startsExpression then (do return .expr (← inner))
        else Parser.fail (.invalidArgument found)) :=
    .ite (fun _ => (hinner x hx).map _) fun _ => .fail _
  cases x.reading.cursor.kind? with
  | none => exact .fail _
  | some k =>
    cases k with
    | mark m =>
      cases m with
      | comma => exact .pure _
      | closeParen => exact .pure _
      | atSign => exact hparameter
      | bang => exact hparameter
      | _ => exact hexpr _ _
    | assign op => exact (parses_equation hinner op hx).map _
    | _ => exact hexpr _ _

theorem parses_arguments (limit : Nat) {x : Reader} (hx : x.levels = L) (hlimit : x.ahead < limit) :
    Parses x 0 (arguments v) (Parser.arguments v inner limit) := by
  induction limit generalizing x with
  | zero => exact absurd hlimit (Nat.not_lt_zero _)
  | succ limit ih =>
    rw [arguments]
    refine (parses_argument hinner hx).bind fun a c hgoes => .takeIf_bind (fun c' hcomma => ?_) ?_
    · have hless : c'.rest.length < limit :=
        Nat.lt_of_lt_of_le (hgoes.trans hcomma).length (Nat.le_of_lt_succ hlimit)
      exact (ih (x := (x.moveTo c).moveTo c') hx hless).map _
    · exact (Parses.lift (Parser.goes_expect _ _)).weaken.bind fun _ c' _ => .pure _

theorem parses_call (name : String) (start : Nat) (hx : x.levels = L) :
    Parses x 0 (call v name start) (Parser.call v inner name start) := by
  rw [call]
  refine (Parses.lift Parser.goes_advance).bind fun _ c _ => .takeIf_bind (fun c' _ => ?_) ?_
  · exact (Parses.pure []).bind fun as c'' _ => .get_bind (.pure _)
  · refine .limit_bind ((parses_arguments hinner _ (x := x.moveTo c) hx (Nat.lt_succ_self _)).bind
      fun as c' _ => ?_)
    exact .get_bind (.pure _)

theorem parses_primary (hx : x.levels = L) :
    Parses x 1 (primary v) (Parser.primary v inner) := by
  rw [primary]
  refine .get_bind ?_
  have hliteral := (Parses.lift (x := x) (Parser.goes_literal false)).map Expr.literal
  cases hpeek : x.reading.cursor.peek? 0 with
  | none => exact .failExpected _
  | some t =>
    obtain ⟨ts, hrest⟩ := Cursor.peek?_eq_some hpeek
    have hadvance : Parses x 1 (liftM Parser.advance) Parser.advance :=
      .lift (.advance_token hrest)
    dsimp only
    cases t.kind with
    | integer => exact hliteral
    | decimal => exact hliteral
    | string => exact hliteral
    | ident =>
      refine hadvance.bind fun _ c _ => ?_
      refine .ite (fun _ => ?_) fun _ => ?_
      · exact parses_call hinner _ _ (x := x.moveTo c) hx
      · exact .pure _
    | directive word =>
      cases word with
      | unique => exact hadvance.bind fun _ c _ => .pure _
      | _ => exact .failExpected _
    | mark m =>
      cases m with
      | openParen =>
        refine hadvance.bind fun _ c _ => ?_
        refine (hinner (x.moveTo c) hx).bind fun e c' _ => ?_
        exact (Parses.lift (Parser.goes_expect _ _)).weaken.bind fun _ c'' _ => .pure _
      | _ => exact .failExpected _
    | _ => exact .failExpected _

theorem parses_exponent (hx : x.levels = L) :
    Parses x 1 (exponent v) (Parser.exponent v inner) := by
  rw [exponent]
  refine .get_bind (.ite (fun _ => ?_) fun _ => ?_)
  · exact (Parses.lift Parser.goes_advance).andThen fun _ c _ =>
      (Parses.lift (Parser.goes_literal true)).map _
  · cases x.reading.cursor.sign? with
    | none => exact parses_primary hinner hx
    | some op => exact (Parses.lift Parser.goes_advance).andThen fun _ c _ =>
        (parses_primary hinner (x := x.moveTo c) hx).map _

theorem parses_exponents (limit : Nat) {base : Expr} {x : Reader} (hx : x.levels = L)
    (hlimit : x.ahead ≤ limit) :
    Parses x 0 (exponents v base) (Parser.exponents v inner limit base) := by
  induction limit generalizing base x with
  | zero =>
    rw [exponents]
    exact .takeIf_end (Nat.le_zero.1 hlimit) (.pure base)
  | succ limit ih =>
    rw [exponents]
    refine .takeIf_bind (fun c hpow => ?_) (.pure _)
    refine (parses_exponent hinner (x := x.moveTo c) hx).weaken.bind fun e c' hgoes => ?_
    refine ih (x := (x.moveTo c).moveTo c') hx (Nat.le_of_lt_succ (Nat.lt_of_lt_of_le ?_ hlimit))
    exact (hpow.trans hgoes).length

theorem parses_power (hx : x.levels = L) : Parses x 1 (power v) (Parser.power v inner) := by
  rw [power]
  exact (parses_primary hinner hx).bind fun base c _ =>
    .limit_bind (parses_exponents hinner _ (x := x.moveTo c) hx (Nat.le_refl _))

theorem parses_signed (hx : x.levels = L) : Parses x 1 (signed v) (Parser.signed v inner) := by
  rw [signed]
  refine .get_bind (.ite (fun _ => ?_) fun _ => ?_)
  · exact (Parses.lift Parser.goes_advance).andThen fun _ c _ =>
      (Parses.lift (Parser.goes_literal true)).map _
  · cases x.reading.cursor.sign? with
    | none => exact parses_power hinner hx
    | some op => exact (Parses.lift Parser.goes_advance).andThen fun _ c _ =>
        (parses_power hinner (x := x.moveTo c) hx).map _

end Inner

theorem kind?_of_ahead_eq_zero (h : x.ahead = 0) : x.reading.cursor.kind? = none := by
  have hrest : x.reading.cursor.rest = [] := List.length_eq_zero_iff.1 h
  rw [Cursor.kind?, Cursor.peek?, hrest]
  rfl

theorem goes_skipSymbol (op : BinaryOp) {c : Cursor} : Goes id 0 (Parser.skipSymbol op) c :=
  .ite (fun _ => .pure _) fun _ => Parser.goes_advance

section Climbing

variable (hinner : ∀ x : Reader, x.levels = L → Parses x 0 (expression v true) inner)
include hinner

theorem progresses_signed (hx : x.levels = L) : Parser.Progresses (Parser.signed v inner) :=
  fun c _ _ hrun => (Parses.goesOn (parses_signed hinner (x := x.moveTo c) hx)).of_ok hrun |>.length

/-- An operand and what the tail reads behind it. -/
theorem parses_strata {height n : Nat} (juxtapose : Bool) (hx : x.levels = L) (hahead : x.ahead ≤ n)
    (htail : ∀ (y : Reader) (lhs : Expr), y.levels = L → y.ahead < n →
      Parses y 0 (operations v juxtapose (4 - height) lhs)
        (Parser.tail juxtapose (Parser.signed v inner) height lhs)) :
    Parses x 1 (binary v juxtapose (4 - height)) (Parser.strata juxtapose (Parser.signed v inner) height) := by
  rw [binary, Parser.strata_eq]
  exact (parses_signed hinner hx).bind fun lhs c hgoes =>
    htail (x.moveTo c) lhs hx (Nat.lt_of_lt_of_le hgoes.length hahead)

/-- The machine climbs.  The induction is on the tokens ahead: each right side has taken one. -/
theorem parses_operations {height : Nat} (juxtapose : Bool) (hheight : height ≤ 3) (lhs : Expr)
    (hx : x.levels = L) :
    Parses x 0 (operations v juxtapose (4 - height) lhs)
      (Parser.tail juxtapose (Parser.signed v inner) height lhs) := by
  induction hlength : x.ahead using Nat.strongRecOn generalizing height lhs x with
  | ind length ih =>
    rw [operations]
    refine .cursor_bind ?_
    cases hop : Parser.operation? juxtapose x.reading.cursor with
    | none => exact .congr (Parser.tail_of_below (Parser.below_of_none hop)) (.pure lhs)
    | some op =>
      dsimp only
      by_cases hlevel : op.level < 4 - height
      · rw [if_pos hlevel]
        exact .congr (Parser.tail_of_below (Parser.below_of_lt hop hlevel)) (.pure lhs)
      · rw [if_neg hlevel]
        have hoperand := progresses_signed hinner hx
        refine .congr (Parser.tail_of_le hoperand hheight hop (Nat.le_of_not_lt hlevel)) ?_
        have hrank : op.level + 1 = 4 - (3 - op.level) := by
          have := (Parser.level_of_operation hop).2
          omega
        rw [hrank]
        refine (Parses.lift (goes_skipSymbol op)).bind fun _ c hsymbol => ?_
        have hahead : (x.moveTo c).ahead ≤ length := hlength ▸ hsymbol.length
        have hrhs := parses_strata hinner juxtapose (x := x.moveTo c) hx hahead
          fun y rhs hy hless => ih _ hless (Nat.sub_le 3 op.level) rhs hy rfl
        refine (hrhs.bind fun rhs c' hgoes => ?_).weaken
        exact ih _ (Nat.lt_of_lt_of_le hgoes.length hahead) hheight (.binary op lhs rhs)
          (x := (x.moveTo c).moveTo c') hx rfl

theorem parses_binary (height : Nat) (juxtapose : Bool) (hheight : height ≤ 3) (hx : x.levels = L) :
    Parses x 1 (binary v juxtapose (4 - height))
      (Parser.strata juxtapose (Parser.signed v inner) height) :=
  parses_strata hinner juxtapose hx (Nat.le_succ x.ahead) fun _ lhs hy _ =>
    parses_operations hinner juxtapose hheight lhs hy

theorem parses_comparison (juxtapose : Bool) (hx : x.levels = L) :
    Parses x 1 (binary v juxtapose 1) (Parser.comparison v inner juxtapose) := by
  rw [Parser.comparison_eq]
  exact parses_binary hinner 3 juxtapose (by decide) hx

end Climbing

end Expressions

/-- An expression, with as many levels as are left. -/
theorem parses_expression (v : Vocabulary) (juxtapose : Bool) {L : Nat} (hx : x.levels = L) :
    Parses x 1 (expression v juxtapose) (Parser.expression v L juxtapose) := by
  induction L generalizing juxtapose x with
  | zero =>
    rw [expression]
    exact .nested_limit hx
  | succ L ih =>
    rw [expression]
    exact .nested hx (parses_comparison (fun x hx => (ih true hx).weaken) juxtapose (levels_deeper hx))

end Reader

end ControlFile
