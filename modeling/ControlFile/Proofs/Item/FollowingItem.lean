import ControlFile.Proofs.Item.Following
import ControlFile.Proofs.Item.Text

/-!
# The machine follows the parsers of items

Single statements are read by parsers of tokens, and the machine follows these (`Reader.Parses`).  Rows
of items cannot fail: `Reader.Gathers x m p` says of them what `Reader.Follows` says of parsers that
can.  A row goes on until it is ended, because a token that no item consumes is skipped; so it stops
where it was to stop or at the end of the text (`ItemParser.stops_items`).

The parser of items has the levels that are left and the bodies of macros around it as arguments.  At a
reader they are those of its registers (`follows_item`).
-/

namespace ControlFile.Reader

variable {α β : Type} {n k L : Nat} {x : Reader}

/-! ### Statements -/

section Statements

variable (v : Vocabulary)

theorem parses_equation_of_levels (op : AssignOp) (hx : x.levels = L) :
    Parses x 0 (equation v op) (Parser.equation (Parser.expression v L true) op) :=
  parses_equation (fun _ hx => (parses_expression v true hx).weaken) op hx

theorem parses_declaration (kind : VariableScope) (scope : Scope) (hx : x.levels = L)
    (hscope : x.isInMacro = scope.inMacro) :
    Parses x 0 (declaration v kind)
      (Parser.declaration (Parser.expression v L true) scope kind) := by
  have hvalue (mark : Refinement) (name : String) (value : Value) (c : Cursor) :
      Parses (x.moveTo c) 0
        (do
          if value.isPresent || (← inMacro) then
            return ItemKind.declaration kind ⟨mark, some name, value⟩
          else Parser.failExpected (.valueOf name))
        (if value.isPresent || scope.inMacro then
          return ItemKind.declaration kind ⟨mark, some name, value⟩
        else Parser.failExpected (.valueOf name)) := by
    refine .inMacro_bind ?_
    rw [← hscope]
    exact .ite (fun _ => .pure _) fun _ => .failExpected _
  refine (Parses.lift Parser.goes_advance).bind fun _ c₁ _ => ?_
  refine (Parses.lift Parser.goes_refinement).bind fun mark c₂ _ => ?_
  refine (Parses.lift (Parser.goes_name _)).bind fun name c₃ _ => ?_
  refine .get_bind (.ite (fun _ => ?_) fun _ => ?_)
  · refine (parses_equation_of_levels v .set (x := x.moveTo c₃) hx).bind fun e c₄ _ => ?_
    exact (Parses.pure _).bind fun value c₅ _ => hvalue mark name value c₅
  · exact (Parses.lift Parser.goes_literalValue).bind fun value c₄ _ => hvalue mark name value c₄

theorem parses_existing (hx : x.levels = L) :
    Parses x 0 (existing v) (Parser.existing (Parser.expression v L true)) := by
  refine (Parses.lift Parser.goes_advance).bind fun _ c₁ _ => ?_
  refine (Parses.lift Parser.goes_refinement).bind fun mark c₂ _ => ?_
  refine (Parses.lift (Parser.goes_name _)).bind fun name c₃ _ => ?_
  refine .get_bind ?_
  generalize Cursor.kind? _ = kind
  cases kind with
  | none => exact .failExpected _
  | some k =>
    cases k with
    | assign op => exact (parses_equation_of_levels v op (x := x.moveTo c₃) hx).map _
    | _ => exact .failExpected _

theorem parses_valueSlot (fixed : Bool) (scope : Scope) {x : Reader} (hx : x.levels = L)
    (hscope : x.isInMacro = scope.inMacro) :
    Parses x 0 (valueSlot v fixed)
      (Parser.valueSlot v (Parser.expression v L true) scope fixed) := by
  refine .get_bind (.ite (fun _ => ?_) fun _ => ?_)
  · exact (parses_equation_of_levels v .set hx).map _
  · refine (Parses.lift Parser.goes_refinement).bind fun mark c₁ _ => ?_
    refine .ite (fun _ => .lift (Parser.goes_failAt _ _)) fun _ => ?_
    refine (Parses.lift (Parser.goes_parameterName? v)).bind fun name c₂ _ => ?_
    refine (Parses.lift Parser.goes_literalValue).bind fun value c₃ _ => .inMacro_bind ?_
    rw [← hscope]
    exact .ite (fun _ => .pure _) fun _ => .failExpected _

/-! ### Sites -/

section Slots

variable {slot : Parser Parameter}
variable (hslot : ∀ c, Parses (x.moveTo c) 0 (valueSlot v false) slot)
include hslot

theorem parses_occModifiers (limit : Nat) (c : Cursor) (hlimit : c.rest.length ≤ limit) :
    Parses (x.moveTo c) 0 (occModifiers v) (Parser.occModifiers slot limit) := by
  induction limit generalizing c with
  | zero =>
    have hnone : Parser.siteWord? c = none := by
      rw [Parser.siteWord?, Cursor.peek?, List.length_eq_zero_iff.1 (Nat.le_zero.1 hlimit)]
      rfl
    rw [occModifiers]
    refine .cursor_bind ?_
    rw [show Parser.siteWord? (x.moveTo c).reading.cursor = none from hnone]
    exact .pure []
  | succ limit ih =>
    have hcursor : (x.moveTo c).reading.cursor = c := rfl
    rw [occModifiers]
    refine .get_bind ?_
    rw [hcursor]
    cases hword : Parser.siteWord? c with
    | none => exact .pure []
    | some w =>
      cases w with
      | occupancy word =>
        have hadvance : Parses (x.moveTo c) 1 (liftM Parser.advance) Parser.advance :=
          .lift (.advance_kind (Parser.kind?_of_siteWord? hword))
        refine (hadvance.bind fun _ c₁ h₁ => (hslot c₁).bind fun value c₂ h₂ => ?_).weaken
        refine (ih c₂ (Nat.le_of_lt_succ (Nat.lt_of_lt_of_le ?_ hlimit))).map _
        exact (h₁.trans h₂).length
      | _ => exact .pure []

theorem parses_occupancy (wordEnd : Nat) (c : Cursor) :
    Parses (x.moveTo c) 0 (occupancy v wordEnd) (Parser.occupancy slot wordEnd) := by
  refine (Parses.lift (Parser.goes_freeWord? _)).bind fun atom c₁ _ => ?_
  cases atom with
  | none => exact .lift (Parser.goes_failAt _ _)
  | some atom =>
    refine (hslot c₁).bind fun value c₂ _ => ?_
    exact .limit_bind ((parses_occModifiers v hslot _ c₂ (Nat.le_refl _)).bind fun modifiers c₃ _ =>
      .pure _)

theorem parses_adp (word : AdpWord) (c : Cursor) :
    Parses (x.moveTo c) 0 (adp v word) (Parser.adp slot word) := by
  refine .get_bind ?_
  refine .ite (fun _ => ?_) fun _ => ?_
  · exact (Parses.lift Parser.goes_advance).bind fun _ c₁ _ => hslot c₁
  · exact .failExpected _

theorem parses_adps (words : Adps AdpWord) (c : Cursor) :
    Parses (x.moveTo c) 0 (words.mapM (adp v)) (words.mapM (Parser.adp slot)) := by
  have hadp := parses_adp v hslot
  refine (hadp _ _).bind fun _ _ _ => ?_
  refine (hadp _ _).bind fun _ _ _ => ?_
  refine (hadp _ _).bind fun _ _ _ => ?_
  refine (hadp _ _).bind fun _ _ _ => ?_
  refine (hadp _ _).bind fun _ _ _ => ?_
  exact (hadp _ _).bind fun _ _ _ => .pure _

end Slots

theorem parses_siteStatement (word : SiteWord) (scope : Scope) (hx : x.levels = L)
    (hscope : x.isInMacro = scope.inMacro) :
    Parses x 0 (siteStatement v word)
      (Parser.siteStatement v (Parser.expression v L true) scope word) := by
  have hslot (fixed : Bool) (c : Cursor) := parses_valueSlot v fixed scope (x := x.moveTo c) hx hscope
  refine .get_bind ((Parses.lift Parser.goes_advance).bind fun _ c _ => ?_)
  cases word with
  | axis a => exact (hslot false c).map _
  | occ => exact (parses_occupancy v (hslot false) _ c).map _
  | scalar s => exact (hslot s.isFixed c).map _
  | adps => exact (parses_adps v (hslot false) _ c).map _
  | occupancy w => exact .lift (Parser.goes_failAt _ _)
  | adp w => exact .lift (Parser.goes_failAt _ _)

theorem parses_wordItem (word : String) (scope : Scope) (hx : x.levels = L)
    (hscope : x.isInMacro = scope.inMacro) :
    Parses x 0 (wordItem v scope.body word) (Parser.wordItem v L scope word) := by
  have hexpr := ((parses_expression v false hx).map ItemKind.expr).weaken
  refine .get_bind (.inMacro_bind ?_)
  rw [hscope]
  refine .ite (fun _ => hexpr) fun _ => ?_
  cases (if scope.body == .siteBody || scope.inMacro then SiteWord.ofWord? word else none) with
  | some w => exact parses_siteStatement v w scope hx hscope
  | none =>
    refine .ite (fun _ => ?_) fun _ => ?_
    · refine (Parses.lift Parser.goes_advance).bind fun _ c _ => ?_
      refine .get_bind ?_
      refine .ite (fun _ => ?_) fun _ => ?_
      · exact (parses_equation_of_levels v .set (x := x.moveTo c) hx).map _
      · exact .pure _
    · cases x.reading.cursor.peekKind? 1 with
      | none => exact hexpr
      | some k =>
        cases k with
        | assign op =>
          exact (Parses.lift Parser.goes_advance).bind fun _ c _ =>
            (parses_equation_of_levels v op (x := x.moveTo c) hx).map _
        | _ => exact hexpr

end Statements

/-! ### Heads of macros -/

theorem parses_macroParams (limit : Nat) {x : Reader} (hlimit : x.ahead < limit) :
    Parses x 0 macroParams (Parser.macroParams limit) := by
  induction limit generalizing x with
  | zero => exact absurd hlimit (Nat.not_lt_zero _)
  | succ limit ih =>
    have hparam (n : Option String) (byReference : Bool) (c : Cursor)
        (hgoes : x.reading.cursor.GoesOn 0 c) : Parses (x.moveTo c) 0
        (do
          if ← Parser.takeIf (.mark .comma) then
            return (⟨n, byReference⟩ : MacroParam) :: (← macroParams)
          else
            Parser.expect (.mark .closeParen) .parametersEnd
            return [⟨n, byReference⟩])
        (do
          if ← Parser.takeIf (.mark .comma) then
            return (⟨n, byReference⟩ : MacroParam) :: (← Parser.macroParams limit)
          else
            Parser.expect (.mark .closeParen) .parametersEnd
            return [⟨n, byReference⟩]) := by
      refine .takeIf_bind (fun c' hcomma => ?_) ?_
      · have hless : c'.rest.length < limit :=
          Nat.lt_of_lt_of_le (hgoes.trans hcomma).length (Nat.le_of_lt_succ hlimit)
        exact (ih (x := (x.moveTo c).moveTo c') hless).map _
      · exact (Parses.lift (Parser.goes_expect _ _)).weaken.bind fun _ c' _ => .pure _
    rw [macroParams]
    refine (Parses.lift (Parser.goes_takeIf _)).bind fun byReference c₁ h₁ => ?_
    refine .get_bind (.ite (fun _ => ?_) fun _ => ?_)
    · refine (Parses.lift Parser.goes_takeText).bind fun n c₂ h₂ => ?_
      refine (Parses.pure _).bind fun n c₃ h₃ => ?_
      exact hparam n byReference c₃ ((h₁.trans h₂).trans h₃)
    · exact (Parses.pure _).bind fun n c₂ h₂ => hparam n byReference c₂ (h₁.trans h₂)

theorem parses_macroParamList : Parses x 0 macroParamList Parser.macroParamList := by
  refine (Parses.lift Parser.goes_advance).bind fun _ c _ => ?_
  exact .takeIf_bind (fun _ _ => .pure _) (.limit_bind (parses_macroParams _ (x := x.moveTo c)
    (Nat.lt_succ_self _)))

theorem parses_signature : Parses x 1 signature Parser.signature := by
  refine .get_bind ((Parses.lift (Parser.goes_takeIf _)).andThen fun byReference c₁ _ => ?_)
  refine .get_bind (.ite (fun hident => ?_) fun _ => .failExpected _)
  have htext : Parses (x.moveTo c₁) 1 (liftM Parser.takeText) Parser.takeText :=
    .lift (Parser.goes_takeText_kind (Cursor.isAt_iff.1 hident))
  refine htext.bind fun n c₂ _ => ?_
  refine .get_bind (.ite (fun _ => ?_) fun _ => ?_)
  · exact parses_macroParamList.bind fun params c₃ _ => .get_bind (.pure _)
  · exact (Parses.pure []).bind fun params c₃ _ => .get_bind (.pure _)

theorem parses_signatures (limit : Nat) {x : Reader} (hlimit : x.ahead < limit) :
    Parses x 0 signatures (Parser.signatures limit) := by
  induction limit generalizing x with
  | zero => exact absurd hlimit (Nat.not_lt_zero _)
  | succ limit ih =>
    rw [signatures]
    refine (parses_signature.bind fun s c₁ h₁ => ?_).weaken
    refine (Parses.lift (Parser.goes_takeIf _)).bind fun _ c₂ h₂ => ?_
    refine .get_bind (.ite (fun _ => ?_) fun _ => .pure _)
    have hless : c₂.rest.length < limit :=
      Nat.lt_of_lt_of_le (h₁.trans h₂).length (Nat.le_of_lt_succ hlimit)
    exact (ih (x := (x.moveTo c₁).moveTo c₂) hless).map _

theorem parses_deletedNames (limit : Nat) {x : Reader} (hlimit : x.ahead ≤ limit) :
    Parses x 0 deletedNames (Parser.deletedNames limit) := by
  induction limit generalizing x with
  | zero =>
    have hident : x.reading.cursor.isAt .ident = false := by
      rw [Cursor.isAt, kind?_of_ahead_eq_zero (Nat.le_zero.1 hlimit)]
      rfl
    rw [deletedNames]
    refine .cursor_bind ?_
    rw [hident]
    exact .pure []
  | succ limit ih =>
    rw [deletedNames]
    refine .get_bind (.ite (fun hident => ?_) fun _ => .pure [])
    have htext : Parses x 1 (liftM Parser.takeText) Parser.takeText :=
      .lift (Parser.goes_takeText_kind (Cursor.isAt_iff.1 hident))
    refine (htext.bind fun n c₁ h₁ => ?_).weaken
    refine (Parses.lift (Parser.goes_takeIf _)).bind fun _ c₂ h₂ => ?_
    have hless : c₂.rest.length ≤ limit :=
      Nat.le_of_lt_succ (Nat.lt_of_lt_of_le (h₁.trans h₂).length hlimit)
    exact (ih (x := (x.moveTo c₁).moveTo c₂) hless).map _

/-! ### Conditions and directives -/

section Directives

variable (v : Vocabulary)

theorem parses_exprCondition (hx : x.levels = L) :
    Parses x 0 (exprCondition v) (Parser.exprCondition (Parser.expression v L true)) := by
  refine (Parses.lift (Parser.goes_takeIf _)).bind fun _ c₁ _ => ?_
  refine (parses_expression v true (x := x.moveTo c₁) hx).weaken.bind fun _ _ _ => ?_
  exact (Parses.lift (Parser.goes_expect _ _)).weaken.bind fun _ _ _ => .pure _

theorem parses_openingCondition (word : DirectiveWord) (hx : x.levels = L) :
    Parses x 0 (openingCondition v word)
      (Parser.openingCondition (Parser.expression v L true) word) := by
  refine (Parses.lift Parser.goes_advance).bind fun _ c _ => ?_
  have hexpr := parses_exprCondition v (x := x.moveTo c) hx
  cases word with
  | ifdef =>
    exact (Parses.lift (Parser.goes_takeIf _)).bind fun negated c₁ _ =>
      (Parses.lift (Parser.goes_name _)).map (Condition.defined · negated)
  | ifndef => exact (Parses.lift (Parser.goes_name _)).map (Condition.defined · true)
  | ifarg =>
    exact (Parses.lift (Parser.goes_name _)).bind fun param c₁ _ =>
      (Parses.lift Parser.goes_argumentTest).map _
  | _ => exact hexpr

/-- A directive that stands alone, in the machine and in the parser. -/
inductive ParsesPlain (x : Reader) : Option (Grammar Directive) → Option (Parser Directive) → Prop
  | none : ParsesPlain x none none
  | some {m : Grammar Directive} {p : Parser Directive} (h : Parses x 0 m p) :
      ParsesPlain x (some m) (some p)

theorem parses_plainDirective? (word : DirectiveWord) (hx : x.levels = L) :
    ParsesPlain x (plainDirective? v word) (Parser.plainDirective? v L word) := by
  have hadvance : Parses x 0 (liftM Parser.advance) Parser.advance := .lift Parser.goes_advance
  cases word with
  | includeFile =>
    exact .some (hadvance.bind fun _ c _ => (Parses.lift Parser.goes_includePath).map _)
  | deleteMacros =>
    refine .some (hadvance.bind fun _ c _ => ?_)
    refine (Parses.lift (Parser.goes_expect _ _)).weaken.bind fun _ c₁ _ => ?_
    refine .limit_bind ((parses_deletedNames _ (Nat.le_refl _)).bind fun names c₂ _ => ?_)
    exact (Parses.lift (Parser.goes_expect _ _)).weaken.bind fun _ c₃ _ => .pure _
  | define => exact .some (hadvance.bind fun _ c _ => (Parses.lift (Parser.goes_name _)).map _)
  | undef => exact .some (hadvance.bind fun _ c _ => (Parses.lift (Parser.goes_name _)).map _)
  | seed => exact .some (hadvance.bind fun _ c _ => .pure _)
  | prm =>
    refine .some (hadvance.bind fun _ c _ => ?_)
    refine (Parses.lift (Parser.goes_name _)).bind fun n c₁ _ => ?_
    refine .get_bind ?_
    refine .ite (fun _ => ?_) fun _ => ?_
    · exact (parses_equation_of_levels v .set (x := x.moveTo c₁) hx).map _
    · exact .failExpected _
  | out =>
    exact .some (hadvance.bind fun _ c _ =>
      (parses_expression v false (x := x.moveTo c) hx).weaken.map _)
  | _ => exact .none

end Directives

/-! ### Rows of items -/

/-- The machine ends with what `p`, which cannot fail, comes to, and reading goes on. -/
structure Gathers (x : Reader) (m : Run α) (p : StateM Reading α) : Prop where
  run : m x = some ((p x.reading).1, x.resume (p x.reading).2)
  goes : x.reading.cursor.GoesOn 0 (p x.reading).2.cursor

namespace Gathers

variable {m : Run α} {p : StateM Reading α} {f : α → Run β} {g : α → StateM Reading β}

theorem pure (a : α) : Gathers x (Pure.pure a) (Pure.pure a) := ⟨rfl, .refl _⟩

theorem bind (h : Gathers x m p)
    (hf : ∀ a r, p x.reading = (a, r) → x.reading.cursor.GoesOn 0 r.cursor →
      Gathers (x.resume r) (f a) (g a)) :
    Gathers x (m >>= f) (p >>= g) := by
  obtain ⟨hrun, hgoes⟩ := hf (p x.reading).1 (p x.reading).2 rfl h.goes
  refine ⟨?_, h.goes.trans hgoes⟩
  change (m x).bind _ = _
  rw [h.run]
  exact hrun

theorem get_bind {f : Reader → Run α} {g : Reading → StateM Reading α}
    (h : Gathers x (f x) (g x.reading)) : Gathers x (get >>= f) (get >>= g) := ⟨h.run, h.goes⟩

/-- The machine looks at its state, and the parser does not. -/
theorem state_bind {f : Reader → Run α} (h : Gathers x (f x) p) : Gathers x (get >>= f) p :=
  ⟨h.run, h.goes⟩

/-- The parser asks for the limit of a loop; the machine does not. -/
theorem limit_bind {g : Reading → StateM Reading α} (h : Gathers x m (g x.reading)) :
    Gathers x m (get >>= g) := ⟨h.run, h.goes⟩

theorem ite {b : Prop} [Decidable b] {m' : Run α} {p' : StateM Reading α} (h : b → Gathers x m p)
    (h' : ¬b → Gathers x m' p') : Gathers x (if b then m else m') (if b then p else p') := by
  split
  · exact h ‹_›
  · exact h' ‹_›

theorem always (h : Gathers x m p) : Follows x 0 (always m) (liftM p) := by
  refine ⟨?_, h.goes⟩
  change (m x).bind _ = _
  rw [h.run]
  rfl

end Gathers

/-- The reader with the body of one more macro open. -/
def inside (x : Reader) : Reader := { x with macroDepth := x.macroDepth + 1 }

/-- The body of a macro that is opened is closed again. -/
theorem Gathers.inBody {m : Run α} {p : StateM Reading α} (h : Gathers x.inside m p) :
    Gathers x (inBody m) p := by
  refine ⟨?_, h.goes⟩
  change (m x.inside).bind _ = _
  rw [h.run]
  rfl

theorem goesOn_recover (c : Cursor) : c.GoesOn 0 c.recover := by
  obtain ⟨ts, hts⟩ := ItemParser.exists_moves_recover c
  exact ⟨ts, hts, Nat.zero_le _⟩

/-- Reading goes on, also behind an item that fails. -/
theorem goesOn_attempt {p : ItemParser (Option Item)} {r : Reading} (h : Goes Reading.cursor 0 p r) :
    r.cursor.GoesOn 0 (ItemParser.attempt p r).2.cursor := by
  unfold Goes at h
  rw [ItemParser.attempt]
  cases hp : p r with
  | ok i r' =>
    rw [hp] at h
    exact h
  | error d r' =>
    rw [hp] at h
    exact h.trans (goesOn_recover _)

/-- An item that fails is reported, and reading goes on behind it. -/
theorem Follows.attempt {m : Grammar (Option Item)} {p : ItemParser (Option Item)}
    (h : Follows x 0 m p) : Gathers x (attempt m) (ItemParser.attempt p) := by
  refine ⟨?_, goesOn_attempt h.goes⟩
  change (m x).bind _ = _
  rw [h.run, ItemParser.attempt]
  cases p x.reading <;> rfl

theorem gathers_skip : Gathers x skip (modify Reading.advance) := ⟨rfl, .advance _⟩

section Rows

variable {v : Vocabulary} {body : Body} {one : ItemParser (Option Item)}

theorem gathers_items (hone : ∀ r, Follows (x.resume r) 0 (item v body) one)
    (stop : TokenKind → Bool) (limit : Nat) (r : Reading) (hlimit : r.cursor.rest.length ≤ limit) :
    Gathers (x.resume r) (items v body stop) (ItemParser.items one stop limit) := by
  induction limit generalizing r with
  | zero =>
    have hend : (x.resume r).reading.cursor.kind? = none :=
      kind?_of_ahead_eq_zero (Nat.le_zero.1 hlimit)
    rw [items]
    refine .state_bind ?_
    rw [hend]
    exact .pure []
  | succ limit ih =>
    have hreading : (x.resume r).reading = r := rfl
    rw [items]
    refine .get_bind ?_
    rw [hreading]
    cases hkind : r.cursor.kind? with
    | none => exact .pure []
    | some kind =>
      have hpositive := Cursor.length_pos_of_kind? hkind
      have hrest (i : Option Item) (r' : Reading) (hless : r'.cursor.rest.length ≤ limit) :
          Gathers (x.resume r') (do return i.toList ++ (← items v body stop))
            (do return i.toList ++ (← ItemParser.items one stop limit)) :=
        (ih r' hless).bind fun is r'' _ _ => .pure _
      refine .ite (fun _ => .pure []) fun _ => ?_
      refine (hone r).attempt.bind fun i r₁ _ h₁ => ?_
      refine .get_bind (.ite (fun hstuck => gathers_skip.bind fun _ r₂ hskip _ => ?_) fun hmoved => ?_)
      · cases hskip
        refine hrest i _ ?_
        have hadvance := Cursor.length_rest_advance r₁.cursor
        have hstuck' : r₁.cursor.rest.length = r.cursor.rest.length := hstuck
        change r₁.cursor.advance.rest.length ≤ limit
        omega
      · refine hrest i r₁ ?_
        have hlength : r₁.cursor.rest.length + 0 ≤ r.cursor.rest.length := h₁.length
        have hmoved' : ¬r₁.cursor.rest.length = r.cursor.rest.length := hmoved
        omega

theorem gathers_allItems (hone : ∀ r, Follows (x.resume r) 0 (item v body) one)
    (stop : TokenKind → Bool) (r : Reading) :
    Gathers (x.resume r) (items v body stop) (ItemParser.allItems one stop) :=
  .limit_bind (gathers_items hone stop _ r (Nat.le_refl _))

theorem gathers_members
    (hone : ∀ r, ItemParser.isAtMember r.cursor = true →
      Follows (x.resume r) 0 (item v .siteBody) one)
    (limit : Nat) (r : Reading) (hlimit : r.cursor.rest.length ≤ limit) :
    Gathers (x.resume r) (members v) (ItemParser.members one limit) := by
  induction limit generalizing r with
  | zero =>
    have hend : ItemParser.isAtMember (x.resume r).reading.cursor = false := by
      have hrest : (x.resume r).reading.cursor.rest = [] :=
        List.length_eq_zero_iff.1 (Nat.le_zero.1 hlimit)
      rw [ItemParser.isAtMember, Cursor.peek?, hrest]
      rfl
    rw [members]
    refine .state_bind ?_
    rw [hend]
    exact .pure []
  | succ limit ih =>
    rw [members]
    refine .get_bind (.ite (fun hmember => ?_) fun _ => .pure [])
    refine (hone r hmember).attempt.bind fun i r₁ _ h₁ => ?_
    refine .get_bind (.ite (fun _ => .pure _) fun hmoved => ?_)
    refine (ih r₁ ?_).bind fun is r₂ _ _ => .pure _
    have hlength : r₁.cursor.rest.length + 0 ≤ r.cursor.rest.length := h₁.length
    have hmoved' : ¬r₁.cursor.rest.length = r.cursor.rest.length := hmoved
    omega

end Rows

/-- Where `p` comes to an end, `stop` holds of the current token, if there is one. -/
def Stops (stop : TokenKind → Bool) (p : StateM Reading α) (r : Reading) : Prop :=
  ∀ k, (p r).2.cursor.kind? = some k → stop k = true

namespace Stops

variable {stop : TokenKind → Bool} {p p' : StateM Reading α} {r : Reading}

theorem bind {f : α → StateM Reading β} (h : Stops stop (f (p r).1) (p r).2) :
    Stops stop (p >>= f) r := h

theorem get_bind {f : Reading → StateM Reading α} (h : Stops stop (f r) r) :
    Stops stop (get >>= f) r := h

theorem ite {b : Prop} [Decidable b] (h : b → Stops stop p r) (h' : ¬b → Stops stop p' r) :
    Stops stop (if b then p else p') r := by
  split
  · exact h ‹_›
  · exact h' ‹_›

end Stops

/-- **A row of items ends where it was to stop, or with the text.** -/
theorem stops_items {one : ItemParser (Option Item)} (hone : ∀ r, Goes Reading.cursor 0 one r)
    (stop : TokenKind → Bool) (limit : Nat) (r : Reading) (hlimit : r.cursor.rest.length ≤ limit) :
    Stops stop (ItemParser.items one stop limit) r := by
  induction limit generalizing r with
  | zero =>
    intro k hk
    exact absurd (Cursor.length_pos_of_kind? hk) (Nat.not_lt.2 hlimit)
  | succ limit ih =>
    refine .get_bind ?_
    split
    · rename_i hkind
      intro k hk
      cases hkind.symm.trans hk
    · rename_i kind hkind
      have hpositive := Cursor.length_pos_of_kind? hkind
      have hgoes := (goesOn_attempt (hone r)).length
      refine .ite (fun hstop k hk => ?_) fun _ => .bind (.get_bind
        (.ite (fun hstuck => ?_) fun hmoved => ?_))
      · cases hkind.symm.trans hk
        exact hstop
      · refine ih (ItemParser.attempt one r).2.advance ?_
        have hadvance := Cursor.length_rest_advance (ItemParser.attempt one r).2.cursor
        change (ItemParser.attempt one r).2.cursor.advance.rest.length ≤ limit
        omega
      · exact ih (ItemParser.attempt one r).2 (by omega)

/-! ### Reports -/

theorem goes_report (d : Diagnostic) (r : Reading) :
    Goes Reading.cursor 0 (ItemParser.report d) r := .refl _

theorem goes_skip (r : Reading) : Goes Reading.cursor 0 ItemParser.advance r := .advance _

theorem goes_skip_kind {k : TokenKind} {r : Reading} (h : r.cursor.kind? = some k) :
    Goes Reading.cursor 1 ItemParser.advance r := .advance_kind h

theorem goes_cursor_bind {r : Reading} {p : Cursor → ItemParser α}
    (h : Goes Reading.cursor n (p r.cursor) r) :
    Goes Reading.cursor n (ItemParser.cursor >>= p) r := h

theorem goes_closeChain (opening : ItemParser.Opening) (r : Reading) :
    Goes Reading.cursor 0 (ItemParser.closeChain opening) r := by
  have hunclosed (r : Reading) := goes_report ⟨.unclosedConditional opening.text, opening.range⟩ r
  refine goes_cursor_bind ?_
  split
  · refine .ite (fun _ => ?_) fun _ => ?_
    · exact goes_skip _
    · refine (goes_report _ _).bind fun _ _ _ => ?_
      exact goes_skip _
  · exact .ite (fun _ => .pure _) fun _ => hunclosed r
  · exact hunclosed r

theorem goes_unexpected (scope : Scope) (r : Reading) :
    Goes Reading.cursor 0 (ItemParser.unexpected scope) r := by
  refine goes_cursor_bind ((goes_report _ _).bind fun _ _ _ => ?_)
  exact (goes_skip _).bind fun _ _ _ => .pure none

/-! ### Items -/

theorem Follows.inMacro_bind {m : Bool → Grammar α} {p : ItemParser α}
    (h : Follows x n (m x.isInMacro) p) : Follows x n (inMacro >>= m) p := ⟨h.run, h.goes⟩

/-- The parser asks for the limit of a loop; the machine does not. -/
theorem Follows.limit_bind {m : Grammar α} {p : Cursor → ItemParser α}
    (h : Follows x n m (p x.reading.cursor)) : Follows x n m (ItemParser.cursor >>= p) :=
  ⟨h.run, h.goes⟩

/-- A result is put into another. -/
theorem Follows.map {m : Grammar α} {p : ItemParser α} (f : α → β) (h : Follows x n m p) :
    Follows x n (do return f (← m)) (do return f (← p)) := h.bind fun a _ _ => .pure (f a)

/-- A statement is an item. -/
theorem Parses.statement {m : Grammar α} {p : Parser α} (kind : α → ItemKind) (h : Parses x n m p) :
    Follows x 0 (do return some (kind (← m))) (do return some (kind (← p))) :=
  Follows.bind h.weaken fun _ _ _ => .pure _

theorem follows_report (d : Diagnostic) :
    Follows x 0 (liftM (ItemParser.report d)) (ItemParser.report d) := .lift (goes_report d _)

theorem follows_skip : Follows x 0 (liftM ItemParser.advance) ItemParser.advance :=
  .lift (goes_skip _)

theorem follows_takeIf (kind : TokenKind) :
    Follows x 0 (liftM (ItemParser.takeIf kind)) (ItemParser.takeIf kind) :=
  .lift (Parses.goes_liftM.2 (Parser.goes_takeIf kind))

theorem follows_closeChain (opening : ItemParser.Opening) :
    Follows x 0 (liftM (ItemParser.closeChain opening)) (ItemParser.closeChain opening) :=
  .lift (goes_closeChain opening _)

/-- What is put behind an item that is reported and skipped. -/
theorem follows_unexpected {scope : Scope} (hscope : x.isInMacro = scope.inMacro) :
    Follows x 0 (do ItemParser.unexpected ⟨scope.body, ← inMacro⟩) (ItemParser.unexpected scope) := by
  refine .inMacro_bind ?_
  rw [hscope]
  exact .lift (goes_unexpected _ _)

section Level

variable (v : Vocabulary) {one : ItemParser (Option Item)}

theorem follows_site
    (hone : ∀ r, ItemParser.isAtMember r.cursor = true →
      Follows (x.resume r) 0 (item v .siteBody) one) :
    Follows x 0 (site v) (ItemParser.site one) := by
  rw [site]
  refine .cursor_bind (follows_skip.bind fun _ r₁ _ => ?_)
  refine Follows.bind (Parses.lift (Parser.goes_freeWord? _)) fun name r₂ _ => ?_
  cases name with
  | none => exact .lift (.refl _)
  | some name => exact .limit_bind ((gathers_members hone _ r₂ (Nat.le_refl _)).always.map _)

section Branches

variable {body : Body} (hone : ∀ r, Follows (x.resume r) 0 (item v body) one) (hx : x.levels = L)
include hone hx

theorem follows_laterBranches (opening : ItemParser.Opening) (limit : Nat) (r : Reading)
    (hlimit : r.cursor.rest.length < limit) :
    Follows (x.resume r) 0 (laterBranches v opening body)
      (ItemParser.laterBranches opening (Parser.expression v L true)
        (ItemParser.allItems one ItemParser.endsBranch) limit) := by
  induction limit generalizing r with
  | zero => exact absurd hlimit (Nat.not_lt_zero _)
  | succ limit ih =>
    have hclose : Follows (x.resume r) 0
        (do ItemParser.closeChain opening; return Chain.done)
        (do ItemParser.closeChain opening; return Chain.done) :=
      (follows_closeChain opening).bind fun _ _ _ => .pure _
    have hreading : (x.resume r).reading = r := rfl
    rw [laterBranches]
    refine .cursor_bind ?_
    rw [hreading]
    cases hkind : r.cursor.kind? with
    | none => exact hclose
    | some kind =>
      cases kind with
      | directive word =>
        cases word with
        | chain family w =>
          have hskip : Follows (x.resume r) 1 (liftM ItemParser.advance) ItemParser.advance :=
            .lift (goes_skip_kind hkind)
          cases w with
          | elseif =>
            refine .ite (fun _ => ?_) fun _ => hclose
            refine (hskip.bind fun _ r₁ h₁ => ?_).weaken
            refine Follows.bind (parses_exprCondition v (x := x.resume r₁) hx) fun condition r₂ h₂ => ?_
            refine (gathers_allItems hone _ r₂).always.bind fun is r₃ h₃ => ?_
            refine (ih r₃ (Nat.lt_of_lt_of_le ?_ (Nat.le_of_lt_succ hlimit))).map _
            exact ((h₁.trans h₂).trans h₃).length
          | otherwise =>
            refine .ite (fun _ => ?_) fun _ => hclose
            refine (hskip.bind fun _ r₁ _ => ?_).weaken
            refine (gathers_allItems hone _ r₁).always.bind fun is r₂ _ => ?_
            exact (follows_closeChain opening).bind fun _ _ _ => .pure _
          | _ => exact hclose
        | _ => exact hclose
      | _ => exact hclose

theorem follows_conditional (family : Family) (word : DirectiveWord) :
    Follows x 0 (conditional v family word body)
      (ItemParser.conditional family word (Parser.expression v L true)
        (ItemParser.allItems one ItemParser.endsBranch)) := by
  rw [conditional]
  refine .cursor_bind (Follows.bind (parses_openingCondition v word hx) fun condition r₁ _ => ?_)
  refine (gathers_allItems hone _ r₁).always.bind fun is r₂ _ => ?_
  exact .limit_bind ((follows_laterBranches v hone hx _ _ r₂ (Nat.lt_succ_self _)).map _)

end Branches

theorem follows_macroDecl (isList : Bool)
    (hone : ∀ r, Follows (x.inside.resume r) 0
      (item v (if isList then .listBody else .macroBody)) one) :
    Follows x 0 (macroDecl v isList)
      (ItemParser.macroDecl isList (ItemParser.allItems one (· == .mark .closeBrace))) := by
  have hbody (heads : List Signature) (r : Reading) : Follows (x.resume r) 0
      (do
        let opening := (← cursor).here
        Parser.expect (.mark .openBrace) .bodyStart
        let is ← always (inBody
          (items v (if isList then .listBody else .macroBody) (· == .mark .closeBrace)))
        if !(← ItemParser.takeIf (.mark .closeBrace)) then
          ItemParser.report ⟨.unclosedMacro, opening⟩
        return ItemKind.macroDecl isList heads is)
      (do
        let opening := (← ItemParser.cursor).here
        Parser.expect (.mark .openBrace) .bodyStart
        let is ← (ItemParser.allItems one (· == .mark .closeBrace) : StateM Reading (List Item))
        if !(← ItemParser.takeIf (.mark .closeBrace)) then
          ItemParser.report ⟨.unclosedMacro, opening⟩
        return ItemKind.macroDecl isList heads is) := by
    refine .cursor_bind (Follows.bind (Parses.lift (Parser.goes_expect _ _)).weaken fun _ r₁ _ => ?_)
    have hitems := Gathers.inBody (x := x.resume r₁)
      (gathers_allItems hone (· == .mark .closeBrace) r₁)
    refine hitems.always.bind fun is r₂ _ => ?_
    refine (follows_takeIf _).bind fun closed r₃ _ => ?_
    refine .ite (fun _ => ?_) fun _ => ?_
    · exact (follows_report _).bind fun _ r₄ _ => .pure _
    · exact .pure _
  rw [macroDecl]
  refine follows_skip.bind fun _ r₁ _ => ?_
  refine .ite (fun _ => ?_) fun _ => ?_
  · exact .limit_bind (Follows.bind (parses_signatures _ (x := x.resume r₁) (Nat.lt_succ_self _))
      fun heads r₂ _ => hbody heads r₂)
  · refine Follows.bind parses_signature.weaken fun head r₂ _ => ?_
    exact (Follows.pure _).bind fun heads r₃ _ => hbody heads r₃

theorem follows_block (hone : ∀ r, Follows (x.resume r) 0 (item v .delimited) one) :
    Follows x 0 (block v)
      (ItemParser.block (ItemParser.allItems one (· == .mark .closeBrace))) := by
  rw [block]
  refine .cursor_bind (follows_skip.bind fun _ r₁ _ => ?_)
  refine (gathers_allItems hone _ r₁).always.bind fun is r₂ _ => ?_
  refine (follows_takeIf _).bind fun closed r₃ _ => ?_
  exact .ite (fun _ => .pure _) fun _ => .lift (.refl _)

/-- The place of an item is noted. -/
theorem follows_located {body : Body} {p : ItemParser (Option ItemKind)}
    (h : Follows x 0 (itemKind v body) p) : Follows x 0 (item v body) (ItemParser.located p) := by
  rw [item]
  refine .cursor_bind (h.bind fun kind r _ => ?_)
  cases kind with
  | some k => exact .cursor_bind (.pure _)
  | none => exact .pure none

/-- A member of a site is no site. -/
theorem ne_site_of_isAtMember {c : Cursor} {t : Token} (h : ItemParser.isAtMember c = true)
    (hpeek : c.peek? 0 = some t) : t.kind ≠ .keyword .site := by
  intro hkind
  rw [ItemParser.isAtMember, hpeek] at h
  simp only [hkind] at h
  cases h

/-- A member of a site, with `levels` levels left. -/
def siteMember (levels : Nat) (deeper : ItemParser.Deeper) (scope : Scope) :
    ItemParser (Option Item) :=
  ItemParser.located do
    match (← ItemParser.cursor).peek? 0 with
    | none => return none
    | some t => ItemParser.leaf v levels deeper { scope with body := .siteBody } t

/-- With `L` levels left, the machine follows the parsers of the next level; if there is none, no
level is left. -/
def FollowsDeeper (L : Nat) : ItemParser.Deeper → Prop
  | none => L = 0
  | some next => ∃ K, L = K + 1 ∧ ∀ (x : Reader) (scope : Scope), x.levels = K →
      x.isInMacro = scope.inMacro → Follows x 0 (item v scope.body) (next scope)

section Deeper

variable {deeper : ItemParser.Deeper} (hdeeper : FollowsDeeper v L deeper)
include hdeeper

theorem follows_nested {m : Grammar α} {parse : (Scope → ItemParser (Option Item)) → ItemParser α}
    (hx : x.levels = L)
    (h : ∀ next K, L = K + 1 → x.deeper.levels = K →
      (∀ (y : Reader) (scope : Scope), y.levels = K → y.isInMacro = scope.inMacro →
        Follows y 0 (item v scope.body) (next scope)) → Follows x.deeper 0 m (parse next)) :
    Follows x 0 (nested m) (ItemParser.nested deeper parse) := by
  cases deeper with
  | none => exact .nested_limit (hx.trans hdeeper)
  | some next =>
    obtain ⟨K, hK, hnext⟩ := hdeeper
    have hlevels : x.levels = K + 1 := hx.trans hK
    exact .nested hlevels (h next K hK (levels_deeper hlevels) hnext)

theorem follows_directiveAnywhere (word : DirectiveWord) (scope : Scope) (hx : x.levels = L)
    (hscope : x.isInMacro = scope.inMacro) :
    Follows x 0 (directiveAnywhere v scope.body word)
      (ItemParser.directiveAnywhere v L deeper scope word) := by
  have hconditional (family : Family) : Follows x 0
      (nested do return some (← conditional v family word scope.body))
      (ItemParser.nested deeper fun next => do
        return some (← ItemParser.conditional family word (Parser.expression v (L - 1) true)
          (ItemParser.allItems (next scope) ItemParser.endsBranch))) := by
    refine follows_nested v hdeeper hx fun next K hK hlevels hnext => ?_
    rw [hK, Nat.add_sub_cancel]
    have hone (r : Reading) := hnext (x.deeper.resume r) scope hlevels hscope
    exact (follows_conditional v hone hlevels family word).map _
  have hplain := parses_plainDirective? v word hx
  unfold directiveAnywhere ItemParser.directiveAnywhere
  generalize plainDirective? v word = m at hplain ⊢
  generalize Parser.plainDirective? v L word = p at hplain ⊢
  cases hplain with
  | some h => exact h.statement .directive
  | none =>
    cases word with
    | chain family w =>
      cases family with
      | document =>
        cases w with
        | opening => exact hconditional .document
        | _ => exact follows_unexpected hscope
      | macroBody =>
        cases w with
        | opening => exact hconditional .macroBody
        | _ => exact follows_unexpected hscope
    | ifdef => exact hconditional .document
    | ifndef => exact hconditional .document
    | ifarg => exact hconditional .macroBody
    | bodyOp op =>
      refine follows_skip.bind fun _ r _ => ?_
      exact Follows.bind (Parses.lift (Parser.goes_name _)) fun name r' _ => .pure _
    | unique => exact (parses_expression v false hx).statement .expr
    | unknown =>
      refine .cursor_bind ((follows_report _).bind fun _ r _ => ?_)
      exact follows_skip.bind fun _ r' _ => .pure _
    | _ => exact follows_unexpected hscope

theorem follows_directive (word : DirectiveWord) (scope : Scope) (hx : x.levels = L)
    (hscope : x.isInMacro = scope.inMacro) :
    Follows x 0 (directive v scope.body word) (ItemParser.directive v L deeper scope word) := by
  rw [directive]
  refine .cursor_bind (.inMacro_bind ?_)
  rw [hscope]
  refine (follows_directiveAnywhere v hdeeper word scope hx hscope).bind fun kind r _ => ?_
  refine .ite (fun _ => ?_) fun _ => ?_
  · exact (follows_report _).bind fun _ r' _ => .pure _
  · exact .pure _

theorem follows_macroItem (isList : Bool) (scope : Scope) (hx : x.levels = L)
    (hscope : x.isInMacro = scope.inMacro) :
    Follows x 0 (macroItem v isList) (ItemParser.macroItem deeper scope isList) := by
  rw [macroItem]
  refine .cursor_bind (.inMacro_bind ?_)
  rw [hscope]
  refine (follows_nested v hdeeper hx fun next K _ hlevels hnext => ?_).bind fun kind r _ => .ite
    (fun _ => (follows_report _).bind fun _ r' _ => .pure _) fun _ => .pure _
  refine follows_macroDecl v isList fun r => ?_
  refine hnext (x.deeper.inside.resume r) ⟨if isList then .listBody else .macroBody, true⟩ hlevels ?_
  exact decide_eq_true (Nat.succ_pos _)

/-- What is no site. -/
theorem follows_kindAt {t : Token} (scope : Scope) (ht : t.kind ≠ .keyword .site)
    (hx : x.levels = L) (hscope : x.isInMacro = scope.inMacro) :
    Follows x 0 (kindAt v scope.body t) (ItemParser.leaf v L deeper scope t) := by
  have hother (kind : TokenKind) : Follows x 0
      (if kind == .mark .openBrace && scope.body == .listBody then
        nested do return some (← block v)
      else if kind.startsExpression then do return some (.expr (← expression v false))
      else do ItemParser.unexpected ⟨scope.body, ← inMacro⟩)
      (if kind == .mark .openBrace && scope.body == .listBody then
        ItemParser.nested deeper fun next => do
          let body := ItemParser.allItems (next { scope with body := .delimited })
            (· == .mark .closeBrace)
          return some (← ItemParser.block body)
      else if kind.startsExpression then do return some (.expr (← Parser.expression v L false))
      else ItemParser.unexpected scope) := by
    refine .ite (fun _ => ?_) fun _ => .ite (fun _ => ?_) fun _ => follows_unexpected hscope
    · exact follows_nested v hdeeper hx fun next K _ hlevels hnext => (follows_block v fun r =>
        hnext (x.deeper.resume r) { scope with body := .delimited } hlevels hscope).map _
    · exact (parses_expression v false hx).statement .expr
  have hparameter := (Parses.lift (x := x) (Parser.goes_markedParameter v)).statement .parameter
  unfold kindAt ItemParser.leaf
  dsimp only
  cases hkind : t.kind with
  | keyword word =>
    cases word with
    | prm => exact (parses_declaration v .prm scope hx hscope).statement id
    | localPrm => exact (parses_declaration v .localPrm scope hx hscope).statement id
    | existingPrm => exact (parses_existing v hx).statement id
    | site => exact absurd hkind ht
    | macroDecl => exact follows_macroItem v hdeeper false scope hx hscope
  | directive word =>
    have hword := follows_directive v hdeeper word scope hx hscope
    cases word with
    | list => exact follows_macroItem v hdeeper true scope hx hscope
    | _ => exact hword
  | mark m =>
    cases m with
    | atSign => exact hparameter
    | bang => exact hparameter
    | closeBrace => exact (follows_report _).bind fun _ r _ => follows_skip.bind fun _ r' _ => .pure _
    | _ => exact hother _
  | assign op => exact (parses_equation_of_levels v op hx).statement .equation
  | ident => exact (parses_wordItem v t.text scope hx hscope).statement id
  | _ => exact hother _

/-- A member of a site. -/
theorem follows_member (scope : Scope) (hmember : ItemParser.isAtMember x.reading.cursor = true)
    (hx : x.levels = L) (hscope : x.isInMacro = scope.inMacro) :
    Follows x 0 (item v .siteBody) (siteMember v L deeper scope) := by
  refine follows_located v ?_
  rw [itemKind]
  refine .cursor_bind ?_
  cases hpeek : x.reading.cursor.peek? 0 with
  | none =>
    rw [ItemParser.isAtMember, hpeek] at hmember
    cases hmember
  | some t =>
    exact follows_kindAt v hdeeper { scope with body := .siteBody }
      (ne_site_of_isAtMember hmember hpeek) hx hscope

theorem follows_itemKind (scope : Scope) (hx : x.levels = L)
    (hscope : x.isInMacro = scope.inMacro) :
    Follows x 0 (itemKind v scope.body) (ItemParser.itemKind v L deeper scope) := by
  rw [itemKind]
  refine .cursor_bind ?_
  cases x.reading.cursor.peek? 0 with
  | none => exact follows_unexpected hscope
  | some t =>
    dsimp only
    split
    · rename_i hsite
      have hkind : kindAt v scope.body t = do return some (← site v) := by
        rw [kindAt, hsite]
      rw [hkind]
      exact (follows_site v fun r hmember =>
        follows_member v hdeeper scope (x := x.resume r) hmember hx hscope).map _
    · exact follows_kindAt v hdeeper scope ‹_› hx hscope

end Deeper

/-- **The machine reads an item as the parser does**, with as many levels as are left. -/
theorem follows_item (scope : Scope) (hx : x.levels = L) (hscope : x.isInMacro = scope.inMacro) :
    Follows x 0 (item v scope.body) (ItemParser.item v L scope) := by
  induction L generalizing x scope with
  | zero =>
    have hdeeper : FollowsDeeper v 0 none := rfl
    exact follows_located v (follows_itemKind v hdeeper scope hx hscope)
  | succ L ih =>
    have hdeeper : FollowsDeeper v (L + 1) (some (ItemParser.item v L)) :=
      ⟨L, rfl, fun x scope hx hscope => ih scope hx hscope⟩
    exact follows_located v (follows_itemKind v hdeeper scope hx hscope)

/-- The parser of the next level, with `L` levels left. -/
def nextLevel : (L : Nat) → ItemParser.Deeper
  | 0 => none
  | L + 1 => some (ItemParser.item v L)

theorem followsDeeper_nextLevel (L : Nat) : FollowsDeeper v L (nextLevel v L) := by
  cases L with
  | zero => rfl
  | succ L => exact ⟨L, rfl, fun x scope hx hscope => follows_item v scope hx hscope⟩

/-- **The machine reads a document as the parser does.** -/
theorem gathers_document (tokens : List Token) (textEnd : Nat) :
    Gathers (start tokens textEnd) (document v) (Parsed.document v) :=
  gathers_allItems (x := start tokens textEnd)
    (fun r => follows_item v (x := (start tokens textEnd).resume r) ⟨.topLevel, false⟩ rfl rfl)
    (fun _ => false) (start tokens textEnd).reading

end Level

end ControlFile.Reader
