import ControlFile.Proofs.Expr.Displacement
import ControlFile.Proofs.Item.Bare

/-!
# Items at other places

A text whose tokens are displaced is read as before: the items are the same but for their places, and
the same faults are reported at the displaced places (`ItemParser.mirrors_document`).

Single statements mirror each other as expressions do.  The parsers of items report faults while they
read on, so what they have reported is displaced with the cursor (`Reading.displaced`).  Sequences of
items never fail; `ItemParser.MirrorsAll` says of them what `Mirrors` says of single items.
-/

namespace ControlFile

/-! ### Statements -/

namespace Parser

variable {f : Nat → Nat} {α β : Type} {c : Cursor}

theorem mirrors_name (role : NameRole) : Mirrors f id (name role) (name role) c := by
  refine .get_bind ?_
  rw [Cursor.isAt_displaced, Cursor.isAt_displaced]
  exact .ite (fun _ => mirrors_takeText) fun _ => mirrors_failExpected _ _

theorem mirrors_failAt (range : Extent) (fault : Fault) (seen : α → β) :
    Mirrors f seen (failAt range fault) (failAt (range.displaced f) fault) c :=
  Mirrored.error (d := ⟨fault, range⟩)

theorem isPresent_bare (value : Value) : value.bare.isPresent = value.isPresent := by
  cases value <;> rfl

section Statements

variable {expr : Parser Expr} (hexpr : ∀ c, Mirrors f Expr.bare expr expr c)
include hexpr

theorem mirrors_declaration (scope : Scope) (kind : VariableScope) :
    Mirrors f (ItemKind.change .bare) (declaration expr scope kind) (declaration expr scope kind) c := by
  refine mirrors_advance_bind (mirrors_refinement.bind_eq fun mark _ => ?_)
  refine (mirrors_name _).bind_eq fun n c' => .get_bind ?_
  have hbehind : ∀ (value value' : Value) (c : Cursor), value'.bare = value.bare →
      Mirrors f (ItemKind.change .bare)
        (if value.isPresent || scope.inMacro then return .declaration kind ⟨mark, some n, value⟩
          else failExpected (.valueOf n))
        (if value'.isPresent || scope.inMacro then return .declaration kind ⟨mark, some n, value'⟩
          else failExpected (.valueOf n)) c := by
    intro value value' c hvalue
    have hpresent : value'.isPresent = value.isPresent := by
      rw [← isPresent_bare value', hvalue, isPresent_bare]
    rw [hpresent]
    refine .ite (fun _ => .pure ?_) fun _ => mirrors_failExpected _ _
    simp only [ItemKind.change, Item.Change.bare, Parameter.bare, hvalue]
  rw [Cursor.isAt_displaced]
  refine .ite (fun _ => ?_) fun _ => ?_
  · exact (mirrors_equation hexpr _).bind fun e e' c he =>
      hbehind (.equation e) (.equation e') c (by rw [Value.bare, he, Value.bare])
  · exact mirrors_literalValue.bind_eq fun value c => hbehind _ _ c rfl

theorem mirrors_existing :
    Mirrors f (ItemKind.change .bare) (existing expr) (existing expr) c := by
  refine mirrors_advance_bind (mirrors_refinement.bind_eq fun mark _ => ?_)
  refine (mirrors_name _).bind_eq fun n c' => .get_bind ?_
  rw [Cursor.kind?_displaced]
  cases c'.kind? with
  | none => exact mirrors_failExpected _ _
  | some kind =>
    cases kind with
    | assign op =>
      refine (mirrors_equation hexpr op).map fun e e' he => ?_
      simp only [ItemKind.change, Assignment.change, Item.Change.bare, he]
    | _ => exact mirrors_failExpected _ _

/-! ### Sites -/

theorem mirrors_valueSlot (v : Vocabulary) (scope : Scope) (fixed : Bool) :
    Mirrors f Parameter.bare (valueSlot v expr scope fixed) (valueSlot v expr scope fixed) c := by
  refine .get_bind ?_
  rw [Cursor.isAt_displaced, Cursor.here_displaced]
  refine .ite (fun _ => ?_) fun _ => mirrors_refinement.bind_eq fun mark _ => ?_
  · refine (mirrors_equation hexpr _).map fun e e' he => ?_
    simp only [Parameter.ofEquation, Parameter.bare, Value.bare, he]
  · refine .ite (fun _ => mirrors_failAt _ _ _) fun _ => ?_
    refine (mirrors_parameterName? v).bind_eq fun _ _ => ?_
    refine mirrors_literalValue.bind_eq fun _ _ => ?_
    exact .ite (fun _ => .pure rfl) fun _ => mirrors_failExpected _ _

end Statements

theorem mirrors_freeWord? (starts : TokenKind → Bool) :
    Mirrors f id (freeWord? starts) (freeWord? starts) c := by
  unfold Parser.Mirrors ControlFile.Mirrors freeWord?
  rw [Cursor.rest_displaced]
  cases c.rest with
  | nil => exact .ok rfl
  | cons t ts =>
    have hcontinues : ∀ t : Token, continuesWord (t.displaced f) = continuesWord t := fun _ => rfl
    have htexts : ((ts.map (·.displaced f)).takeWhile continuesWord).map (·.text) =
        (ts.takeWhile continuesWord).map (·.text) := by
      have hcomp : (continuesWord ∘ fun t => t.displaced f) = continuesWord := funext hcontinues
      rw [List.takeWhile_map, List.map_map, hcomp]
      rfl
    rw [List.map_cons]
    dsimp only
    rw [Token.kind_displaced, Token.text_displaced, htexts, Cursor.advance_displaced,
      Cursor.skipWhile_displaced f _ hcontinues]
    by_cases hunique : t.kind = .directive .unique
    · rw [if_pos hunique, if_pos hunique]
      exact .ok rfl
    · rw [if_neg hunique, if_neg hunique]
      by_cases hstarts : starts t.kind = true
      · rw [if_pos hstarts, if_pos hstarts]
        exact .ok rfl
      · rw [if_neg hstarts, if_neg hstarts]
        exact .ok rfl

theorem siteWord?_displaced (c : Cursor) : siteWord? (c.displaced f) = siteWord? c := by
  unfold siteWord?
  rw [Cursor.peek?_displaced]
  cases c.peek? 0 <;> rfl

section Slots

variable {slot : Parser Parameter} (hslot : ∀ c, Mirrors f Parameter.bare slot slot c)
include hslot

theorem mirrors_occModifiers (limit : Nat) (c : Cursor) :
    Mirrors f (List.map (OccModifier.change .bare)) (occModifiers slot limit)
      (occModifiers slot limit) c := by
  induction limit generalizing c with
  | zero => exact .pure rfl
  | succ limit ih =>
    refine .get_bind ?_
    rw [siteWord?_displaced]
    cases siteWord? c with
    | none => exact .pure rfl
    | some word =>
      cases word with
      | occupancy word =>
        refine mirrors_advance_bind ((hslot _).bind fun value value' c' hvalue => ?_)
        refine (ih c').bind fun ms ms' _ hms => .pure ?_
        rw [List.map_cons, hms, List.map_cons]
        simp only [OccModifier.change, Item.Change.bare, hvalue]
      | _ => exact .pure rfl

theorem mirrors_occupancy (wordEnd : Nat) :
    Mirrors f (Occupancy.change .bare) (occupancy slot wordEnd) (occupancy slot (f wordEnd)) c := by
  refine (mirrors_freeWord? _).bind_eq fun atom c' => ?_
  cases atom with
  | none => exact mirrors_failAt (.emptyAt wordEnd) _ _
  | some atom =>
    refine (hslot _).bind fun value value' c'' hvalue => .get_bind ?_
    rw [Cursor.rest_displaced, List.length_map]
    refine (mirrors_occModifiers hslot _ c'').bind fun ms ms' _ hms => .pure ?_
    have hvalue' : Item.Change.bare.parameter value' = Item.Change.bare.parameter value := hvalue
    rw [Occupancy.change, hvalue', hms, Occupancy.change]

theorem mirrors_adp (word : AdpWord) (c : Cursor) :
    Mirrors f Parameter.bare (adp slot word) (adp slot word) c := by
  refine .get_bind ?_
  rw [siteWord?_displaced]
  exact .ite (fun _ => mirrors_advance_bind (hslot _)) fun _ => mirrors_failExpected _ _

theorem mirrors_adps :
    Mirrors f (Adps.map Parameter.bare) (Adps.words.mapM (adp slot)) (Adps.words.mapM (adp slot)) c := by
  unfold Adps.mapM
  refine (mirrors_adp hslot _ _).bind fun _ _ _ h11 => ?_
  refine (mirrors_adp hslot _ _).bind fun _ _ _ h22 => ?_
  refine (mirrors_adp hslot _ _).bind fun _ _ _ h33 => ?_
  refine (mirrors_adp hslot _ _).bind fun _ _ _ h12 => ?_
  refine (mirrors_adp hslot _ _).bind fun _ _ _ h13 => ?_
  refine (mirrors_adp hslot _ _).bind fun _ _ _ h23 => .pure ?_
  simp only [Adps.map, h11, h22, h33, h12, h13, h23]

end Slots

theorem mirrors_siteStatement (v : Vocabulary) {expr : Parser Expr}
    (hexpr : ∀ c, Mirrors f Expr.bare expr expr c) (scope : Scope) (word : SiteWord) :
    Mirrors f (ItemKind.change .bare) (siteStatement v expr scope word)
      (siteStatement v expr scope word) c := by
  have hslot : ∀ fixed c, Mirrors f Parameter.bare (valueSlot v expr scope fixed)
      (valueSlot v expr scope fixed) c := fun fixed _ => mirrors_valueSlot hexpr v scope fixed
  refine .get_bind (mirrors_advance_bind ?_)
  rw [Cursor.here_displaced]
  have hchange : ∀ {value value' : Parameter}, value'.bare = value.bare →
      Item.Change.bare.parameter value' = Item.Change.bare.parameter value := fun h => h
  cases word with
  | axis a =>
    refine (hslot false _).map fun value value' hvalue => ?_
    rw [ItemKind.change, SiteStatement.change, hchange hvalue, ItemKind.change, SiteStatement.change]
  | occ =>
    refine (mirrors_occupancy (hslot false) _).map fun occ occ' hocc => ?_
    rw [ItemKind.change, SiteStatement.change, hocc, ItemKind.change, SiteStatement.change]
  | scalar s =>
    refine (hslot s.isFixed _).map fun value value' hvalue => ?_
    rw [ItemKind.change, SiteStatement.change, hchange hvalue, ItemKind.change, SiteStatement.change]
  | adps =>
    refine (mirrors_adps (hslot false)).map fun values values' hvalues => ?_
    have hvalues' : values'.map Item.Change.bare.parameter = values.map Item.Change.bare.parameter := hvalues
    rw [ItemKind.change, SiteStatement.change, hvalues', ItemKind.change, SiteStatement.change]
  | occupancy _ => exact mirrors_failAt c.here _ _
  | adp _ => exact mirrors_failAt c.here _ _

/-! ### Items that start with an identifier -/

theorem mirrors_exprItem (v : Vocabulary) (levels : Nat) (juxtapose : Bool) :
    Mirrors f (ItemKind.change .bare) (do return .expr (← expression v levels juxtapose))
      (do return .expr (← expression v levels juxtapose)) c :=
  (mirrors_expression v levels juxtapose c).map fun e e' he => by
    simp only [ItemKind.change, Item.Change.bare, he]

theorem mirrors_wordItem (v : Vocabulary) (levels : Nat) (scope : Scope) (word : String) :
    Mirrors f (ItemKind.change .bare) (wordItem v levels scope word) (wordItem v levels scope word) c := by
  have hequation : ∀ op c, Mirrors f Equation.bare (equation (expression v levels true) op)
      (equation (expression v levels true) op) c :=
    fun op _ => mirrors_equation (mirrors_expression v levels true) op
  refine .get_bind ?_
  rw [Cursor.isAtCall_displaced, Cursor.peekKind?_displaced]
  refine .ite (fun _ => mirrors_exprItem v levels false) fun _ => ?_
  cases (if (scope.body == .siteBody || scope.inMacro) = true then SiteWord.ofWord? word else none) with
  | some w => exact mirrors_siteStatement v (mirrors_expression v levels true) scope w
  | none =>
    refine .ite (fun _ => mirrors_advance_bind (.get_bind ?_)) fun _ => ?_
    · rw [Cursor.isAt_displaced]
      refine .ite (fun _ => (hequation _ _).map fun e e' he => ?_) fun _ => .pure rfl
      simp only [ItemKind.change, Item.Change.bare, Option.map_some, he]
    · cases c.peekKind? 1 with
      | none => exact mirrors_exprItem v levels false
      | some kind =>
        cases kind with
        | assign op =>
          refine mirrors_advance_bind ((hequation op _).map fun e e' he => ?_)
          simp only [ItemKind.change, Item.Change.bare, he]
        | _ => exact mirrors_exprItem v levels false

/-! ### Macros -/

theorem mirrors_macroParams (limit : Nat) (c : Cursor) :
    Mirrors f id (macroParams limit) (macroParams limit) c := by
  induction limit generalizing c with
  | zero => exact .pure rfl
  | succ limit ih =>
    refine (mirrors_takeIf _).bind_eq fun byReference c' => .get_bind ?_
    have hbehind : ∀ (n : Option String) (c : Cursor), Mirrors f id
        (do
          if ← takeIf (.mark .comma) then return ⟨n, byReference⟩ :: (← macroParams limit)
          else
            expect (.mark .closeParen) .parametersEnd
            return [⟨n, byReference⟩])
        (do
          if ← takeIf (.mark .comma) then return ⟨n, byReference⟩ :: (← macroParams limit)
          else
            expect (.mark .closeParen) .parametersEnd
            return [⟨n, byReference⟩]) c := fun n c =>
      (mirrors_takeIf _).bind_eq fun _ c => .ite (fun _ => (ih c).bind_eq fun _ _ => .pure rfl)
        fun _ => (mirrors_expect _ _).bind_eq fun _ _ => .pure rfl
    rw [Cursor.isAt_displaced]
    exact .ite (fun _ => mirrors_takeText.bind_eq fun n c => hbehind (some n) c) fun _ => hbehind none c'

theorem mirrors_macroParamList : Mirrors f id macroParamList macroParamList c := by
  refine mirrors_advance_bind ((mirrors_takeIf _).bind_eq fun _ c' => ?_)
  refine .ite (fun _ => .pure rfl) fun _ => ?_
  refine .get_bind ?_
  rw [Cursor.rest_displaced, List.length_map]
  exact mirrors_macroParams _ c'

theorem mirrors_signature : Mirrors f (Signature.change .bare) signature signature c := by
  refine .get_bind ((mirrors_takeIf _).bind_eq fun byReference c' => ?_)
  refine .get_bind ?_
  rw [Cursor.isAt_displaced]
  refine .ite (fun _ => mirrors_takeText.bind_eq fun n c'' => .get_bind ?_) fun _ =>
    mirrors_failExpected _ _
  rw [Cursor.isAt_displaced, Cursor.isSpaced_displaced]
  refine .ite (fun _ => ?_) fun _ => ?_
  · exact mirrors_macroParamList.bind_eq fun _ _ => .get_bind (.pure rfl)
  · exact .get_bind (.pure rfl)

theorem mirrors_signatures (limit : Nat) (c : Cursor) :
    Mirrors f (List.map (Signature.change .bare)) (signatures limit) (signatures limit) c := by
  induction limit generalizing c with
  | zero => exact .pure rfl
  | succ limit ih =>
    refine mirrors_signature.bind fun s s' c' hs => ?_
    refine (mirrors_takeIf _).bind_eq fun _ c'' => ?_
    refine .get_bind ?_
    rw [Cursor.isAt_displaced, Cursor.isAt_displaced]
    refine .ite (fun _ => (ih c'').bind fun ss ss' _ hss => .pure ?_) fun _ => .pure ?_
    · rw [List.map_cons, hs, hss, List.map_cons]
    · rw [List.map_cons, hs, List.map_cons]

/-! ### Directives and conditions -/

theorem mirrors_deletedNames (limit : Nat) (c : Cursor) :
    Mirrors f id (deletedNames limit) (deletedNames limit) c := by
  induction limit generalizing c with
  | zero => exact .pure rfl
  | succ limit ih =>
    refine .get_bind ?_
    rw [Cursor.isAt_displaced]
    refine .ite (fun _ => ?_) fun _ => ?_
    · refine mirrors_takeText.bind_eq fun _ _ => ?_
      refine (mirrors_takeIf _).bind_eq fun _ c' => ?_
      exact (ih c').bind_eq fun _ _ => .pure rfl
    · exact .pure rfl

theorem mirrors_exprCondition {expr : Parser Expr} (hexpr : ∀ c, Mirrors f Expr.bare expr expr c) :
    Mirrors f (Condition.change .bare) (exprCondition expr) (exprCondition expr) c := by
  refine (mirrors_takeIf _).bind_eq fun _ c' => ?_
  refine (hexpr c').bind fun e e' _ he => ?_
  refine (mirrors_expect _ _).bind_eq fun _ _ => ?_
  exact .pure (by simp only [Condition.change, Item.Change.bare, he])

theorem mirrors_argumentTest : Mirrors f id argumentTest argumentTest c := by
  refine .get_bind ?_
  rw [Cursor.kind?_displaced]
  cases c.kind? with
  | none => exact mirrors_failExpected _ _
  | some kind =>
    cases kind with
    | directive word =>
      cases word with
      | form form => exact mirrors_advance_bind (.pure rfl)
      | _ => exact mirrors_failExpected _ _
    | string => exact mirrors_takeText.bind_eq fun _ _ => .pure rfl
    | _ => exact mirrors_failExpected _ _

theorem mirrors_openingCondition {expr : Parser Expr} (hexpr : ∀ c, Mirrors f Expr.bare expr expr c)
    (word : DirectiveWord) :
    Mirrors f (Condition.change .bare) (openingCondition expr word) (openingCondition expr word) c := by
  refine mirrors_advance_bind ?_
  cases word with
  | ifdef => exact (mirrors_takeIf _).bind_eq fun _ _ => (mirrors_name _).bind_eq fun _ _ => .pure rfl
  | ifndef => exact (mirrors_name _).bind_eq fun _ _ => .pure rfl
  | ifarg => exact (mirrors_name _).bind_eq fun _ _ => mirrors_argumentTest.bind_eq fun _ _ => .pure rfl
  | _ => exact mirrors_exprCondition hexpr

theorem mirrors_includePath : Mirrors f id includePath includePath c := by
  refine .get_bind ?_
  rw [Cursor.isAt_displaced]
  exact .ite (fun _ => mirrors_takeText.bind_eq fun _ _ => .pure rfl) fun _ => mirrors_failExpected _ _

theorem mirrors_plainDirective? {v : Vocabulary} {levels : Nat} {word : DirectiveWord}
    {p : Parser Directive} (h : plainDirective? v levels word = some p) :
    Mirrors f (Directive.change .bare) p p c := by
  have hname : ∀ (role : NameRole) (make : String → Directive), Mirrors f (Directive.change .bare)
      (do advance; return make (← name role)) (do advance; return make (← name role)) c :=
    fun role make => mirrors_advance_bind ((mirrors_name role).bind_eq fun _ _ => .pure rfl)
  cases word with
  | includeFile =>
    cases h
    exact mirrors_advance_bind (mirrors_includePath.bind_eq fun _ _ => .pure rfl)
  | deleteMacros =>
    cases h
    refine mirrors_advance_bind ((mirrors_expect _ _).bind_eq fun _ c' => ?_)
    refine .get_bind ?_
    rw [Cursor.rest_displaced, List.length_map]
    exact (mirrors_deletedNames _ c').bind_eq fun _ _ => (mirrors_expect _ _).bind_eq fun _ _ => .pure rfl
  | define =>
    cases h
    exact hname .define .define
  | undef =>
    cases h
    exact hname .undef .undef
  | seed =>
    cases h
    exact mirrors_advance_bind (.pure rfl)
  | prm =>
    cases h
    refine mirrors_advance_bind ((mirrors_name _).bind_eq fun n c' => ?_)
    refine .get_bind ?_
    rw [Cursor.isAt_displaced]
    refine .ite (fun _ => ?_) fun _ => mirrors_failExpected _ _
    refine (mirrors_equation (mirrors_expression v levels true) _).map fun e e' he => ?_
    simp only [Directive.change, Item.Change.bare, he]
  | out =>
    cases h
    refine mirrors_advance_bind ((mirrors_expression v levels false _).map fun e e' he => ?_)
    simp only [Directive.change, Item.Change.bare, he]
  | _ => cases h

end Parser

/-! ### Reading -/

section Places

variable (f : Nat → Nat)

/-- Where reading stands, with what has been reported, at other places. -/
def Reading.displaced (r : Reading) : Reading :=
  ⟨r.cursor.displaced f, r.reported.map (·.displaced f)⟩

@[simp] theorem Reading.cursor_displaced (r : Reading) :
    (r.displaced f).cursor = r.cursor.displaced f := rfl

theorem Reading.report_displaced (r : Reading) (d : Diagnostic) :
    (r.displaced f).report (d.displaced f) = (r.report d).displaced f := by
  simp [Reading.report, Reading.displaced]

theorem Reading.advance_displaced (r : Reading) : (r.displaced f).advance = r.advance.displaced f := by
  simp [Reading.advance, Reading.displaced]

/-- Reading goes on at the same token. -/
theorem Cursor.recover_displaced (c : Cursor) : (c.displaced f).recover = c.recover.displaced f := by
  unfold Cursor.recover
  dsimp only
  rw [Cursor.skipWhile_displaced f c fun _ => rfl, Cursor.isAt_displaced, Cursor.advance_displaced]
  split <;> rfl

/-- What opened a conditional, at another place. -/
def ItemParser.Opening.displaced (opening : ItemParser.Opening) : ItemParser.Opening :=
  ⟨opening.family, opening.text, opening.range.displaced f⟩

end Places

/-- The items of two rows, one behind the other. -/
theorem Item.changeAll_append (g : Item.Change) (is js : List Item) :
    Item.changeAll g (is ++ js) = Item.changeAll g is ++ Item.changeAll g js := by
  induction is with
  | nil => rfl
  | cons i is ih => rw [List.cons_append, Item.changeAll, ih, Item.changeAll, List.cons_append]

namespace ItemParser

variable {f : Nat → Nat} {α β γ : Type} {seen : α → β} {r : Reading}

/-- The parser reads the displaced tokens as it reads those ahead. -/
abbrev Mirrors (f : Nat → Nat) (seen : α → β) (p q : ItemParser α) (r : Reading) : Prop :=
  ControlFile.Mirrors f (Reading.displaced f) seen p q r

/-- The same for what cannot fail. -/
structure MirrorsAll (f : Nat → Nat) (seen : α → β) (p q : StateM Reading α) (r : Reading) : Prop where
  result : seen (q (r.displaced f)).1 = seen (p r).1
  reading : (q (r.displaced f)).2 = (p r).2.displaced f

namespace MirrorsAll

variable {α' : Type} {seen' : α' → γ} {p q : StateM Reading α} {k l : α → StateM Reading α'}

theorem pure {a a' : α} (h : seen a' = seen a) :
    MirrorsAll f seen (Pure.pure a) (Pure.pure a') r := ⟨h, rfl⟩

theorem bind (h : MirrorsAll f seen p q r)
    (hk : ∀ a a' r, seen a' = seen a → MirrorsAll f seen' (k a) (l a') r) :
    MirrorsAll f seen' (p >>= k) (q >>= l) r := by
  have hnext := hk (p r).1 (q (r.displaced f)).1 (p r).2 h.result
  refine ⟨?_, ?_⟩
  · change seen' (l (q (r.displaced f)).1 (q (r.displaced f)).2).1 = _
    rw [h.reading]
    exact hnext.result
  · change (l (q (r.displaced f)).1 (q (r.displaced f)).2).2 = _
    rw [h.reading]
    exact hnext.reading

theorem get_bind {k l : Reading → StateM Reading α}
    (h : MirrorsAll f seen (k r) (l (r.displaced f)) r) :
    MirrorsAll f seen (get >>= k) (get >>= l) r := ⟨h.result, h.reading⟩

theorem advance_bind {k l : Unit → StateM Reading α} (h : MirrorsAll f seen (k ()) (l ()) r.advance) :
    MirrorsAll f seen (modify Reading.advance >>= k) (modify Reading.advance >>= l) r := by
  refine ⟨?_, ?_⟩
  · change seen (l () (r.displaced f).advance).1 = _
    rw [Reading.advance_displaced]
    exact h.result
  · change (l () (r.displaced f).advance).2 = _
    rw [Reading.advance_displaced]
    exact h.reading

theorem ite {c : Prop} [Decidable c] {p p' q q' : StateM Reading α} (hpos : c → MirrorsAll f seen p q r)
    (hneg : ¬c → MirrorsAll f seen p' q' r) :
    MirrorsAll f seen (if c then p else p') (if c then q else q') r := by
  by_cases h : c
  · rw [if_pos h, if_pos h]
    exact hpos h
  · rw [if_neg h, if_neg h]
    exact hneg h

end MirrorsAll

/-- A parser of tokens, among those of items. -/
theorem mirrors_lift {p q : Parser α} (h : Parser.Mirrors f seen p q r.cursor) :
    Mirrors f seen (liftM p) (liftM q) r := by
  unfold ItemParser.Mirrors ControlFile.Mirrors
  unfold Parser.Mirrors ControlFile.Mirrors at h
  simp only [liftM, monadLift, MonadLift.monadLift, Reading.cursor_displaced]
  generalize p r.cursor = outcome, q (r.cursor.displaced f) = outcome' at h ⊢
  cases h with
  | ok ha => exact .ok (s := { r with cursor := _ }) ha
  | error => exact .error (s := { r with cursor := _ })

/-- A sequence, among parsers that can fail. -/
theorem mirrors_liftAll {p q : StateM Reading α} (h : MirrorsAll f seen p q r) :
    Mirrors f seen (liftM p) (liftM q) r := by
  unfold ItemParser.Mirrors ControlFile.Mirrors
  change Mirrored _ _ _ (.ok (p r).1 (p r).2) (.ok (q (r.displaced f)).1 (q (r.displaced f)).2)
  rw [h.reading]
  exact .ok h.result

theorem mirrors_cursor_bind {k l : Cursor → ItemParser α}
    (h : Mirrors f seen (k r.cursor) (l (r.cursor.displaced f)) r) :
    Mirrors f seen (cursor >>= k) (cursor >>= l) r := h

theorem mirrors_advance_bind {k l : Unit → ItemParser α}
    (h : Mirrors f seen (k ()) (l ()) r.advance) :
    Mirrors f seen (advance >>= k) (advance >>= l) r := by
  unfold ItemParser.Mirrors ControlFile.Mirrors
  change Mirrored _ _ _ _ (l () (r.displaced f).advance)
  rw [Reading.advance_displaced]
  exact h

theorem mirrors_advance : Mirrors f id advance advance r := mirrors_advance_bind (.pure rfl)

theorem mirrors_throw (d : Diagnostic) (seen : α → β) :
    Mirrors f seen (throw d) (throw (d.displaced f)) r := .error

theorem mirrors_report (d : Diagnostic) :
    Mirrors f id (report d) (report (d.displaced f)) r := by
  have hrun : report (d.displaced f) (r.displaced f) = .ok () ((r.report d).displaced f) := by
    rw [← Reading.report_displaced]
    rfl
  unfold ItemParser.Mirrors ControlFile.Mirrors
  rw [hrun]
  exact .ok rfl

theorem mirrors_takeIf (kind : TokenKind) : Mirrors f id (takeIf kind) (takeIf kind) r :=
  mirrors_lift (Parser.mirrors_takeIf kind)

/-! ### Sequences -/

/-- What is to be the same of an item that may not be there. -/
abbrev bareItem? : Option Item → Option Item := Option.map (Item.change .bare)

/-- What is to be the same of what an item is, if there is one. -/
abbrev bareKind? : Option ItemKind → Option ItemKind := Option.map (ItemKind.change .bare)

theorem bareAll_toList {o o' : Option Item} (h : bareItem? o' = bareItem? o) :
    Item.bareAll o'.toList = Item.bareAll o.toList := by
  have htoList : ∀ o : Option Item, Item.bareAll o.toList = (bareItem? o).toList := fun o => by
    cases o <;> rfl
  rw [htoList, h, htoList]

theorem bareAll_append {o o' : Option Item} {is is' : List Item} (h : bareItem? o' = bareItem? o)
    (hs : Item.bareAll is' = Item.bareAll is) :
    Item.bareAll (o'.toList ++ is') = Item.bareAll (o.toList ++ is) := by
  have happend := Item.changeAll_append .bare
  rw [Item.bareAll, happend, ← Item.bareAll, ← Item.bareAll, bareAll_toList h, hs, Item.bareAll, Item.bareAll,
    ← happend, Item.bareAll]

theorem attempt_of_ok {one : ItemParser (Option Item)} {r r' : Reading} {o : Option Item}
    (h : one r = .ok o r') : attempt one r = (o, r') := by
  rw [attempt, h]

theorem attempt_of_error {one : ItemParser (Option Item)} {r r' : Reading} {d : Diagnostic}
    (h : one r = .error d r') :
    attempt one r = (none, { r'.report d with cursor := r'.cursor.recover }) := by
  rw [attempt, h]

section Sequences

variable {one : ItemParser (Option Item)} (hone : ∀ r, Mirrors f bareItem? one one r)
include hone

theorem mirrors_attempt (r : Reading) : MirrorsAll f bareItem? (attempt one) (attempt one) r := by
  have h := hone r
  unfold ItemParser.Mirrors ControlFile.Mirrors at h
  generalize hrun : one r = outcome, hrun' : one (r.displaced f) = outcome' at h
  cases h with
  | ok ha =>
    constructor
    · rw [attempt_of_ok hrun, attempt_of_ok hrun', ha]
    · rw [attempt_of_ok hrun, attempt_of_ok hrun']
  | error =>
    constructor
    · rw [attempt_of_error hrun, attempt_of_error hrun']
    · rw [attempt_of_error hrun, attempt_of_error hrun']
      simp [Reading.displaced, Reading.report, Cursor.recover_displaced]

theorem mirrors_items (stop : TokenKind → Bool) (limit : Nat) (r : Reading) :
    MirrorsAll f Item.bareAll (items one stop limit) (items one stop limit) r := by
  induction limit generalizing r with
  | zero => exact .pure rfl
  | succ limit ih =>
    refine .get_bind ?_
    rw [Reading.cursor_displaced, Cursor.kind?_displaced, Cursor.rest_displaced, List.length_map]
    cases r.cursor.kind? with
    | none => exact .pure rfl
    | some kind =>
      refine .ite (fun _ => .pure rfl) fun _ => ?_
      refine (mirrors_attempt hone r).bind fun o o' r' ho => ?_
      refine .get_bind ?_
      rw [Reading.cursor_displaced, Cursor.rest_displaced, List.length_map]
      have hrest : ∀ r, MirrorsAll f Item.bareAll (do return o.toList ++ (← items one stop limit))
          (do return o'.toList ++ (← items one stop limit)) r := fun r =>
        (ih r).bind fun is is' _ his => .pure (bareAll_append ho his)
      exact .ite (fun _ => .advance_bind (hrest _)) fun _ => hrest _

theorem mirrors_allItems (stop : TokenKind → Bool) (r : Reading) :
    MirrorsAll f Item.bareAll (allItems one stop) (allItems one stop) r := by
  refine .get_bind ?_
  rw [Reading.cursor_displaced, Cursor.rest_displaced, List.length_map]
  exact mirrors_items hone stop _ r

end Sequences

theorem isAtMember_displaced (c : Cursor) : isAtMember (c.displaced f) = isAtMember c := by
  unfold isAtMember
  rw [Cursor.peek?_displaced]
  cases c.peek? 0 with
  | none => rfl
  | some t =>
    rw [Option.map_some, Cursor.isAtCall_displaced]
    rfl

theorem mirrors_members {one : ItemParser (Option Item)} (hone : ∀ r, Mirrors f bareItem? one one r)
    (limit : Nat) (r : Reading) :
    MirrorsAll f Item.bareAll (members one limit) (members one limit) r := by
  induction limit generalizing r with
  | zero => exact .pure rfl
  | succ limit ih =>
    refine .get_bind ?_
    rw [Reading.cursor_displaced, isAtMember_displaced, Cursor.rest_displaced, List.length_map]
    refine .ite (fun _ => (mirrors_attempt hone r).bind fun o o' r' ho => .get_bind ?_) fun _ => .pure
      rfl
    rw [Reading.cursor_displaced, Cursor.rest_displaced, List.length_map]
    refine .ite (fun _ => .pure (bareAll_toList ho)) fun _ => ?_
    exact (ih r').bind fun is is' _ his => .pure (bareAll_append ho his)

theorem mirrors_located {kind : ItemParser (Option ItemKind)} (h : ∀ r, Mirrors f bareKind? kind kind r)
    (r : Reading) : Mirrors f bareItem? (located kind) (located kind) r := by
  refine mirrors_cursor_bind ((h r).bind fun o o' r' ho => ?_)
  cases o with
  | none =>
    obtain rfl : o' = none := Option.map_eq_none_iff.1 ho
    exact .pure rfl
  | some k =>
    obtain ⟨k', rfl, hk⟩ := Option.map_eq_some_iff.1 ho
    refine mirrors_cursor_bind (.pure ?_)
    rw [bareItem?, Option.map_some, Option.map_some, Item.change, Item.change, hk]
    rfl

theorem mirrors_site {member : ItemParser (Option Item)} (h : ∀ r, Mirrors f bareItem? member member r) :
    Mirrors f (ItemKind.change .bare) (site member) (site member) r := by
  refine mirrors_cursor_bind (mirrors_advance_bind ((mirrors_lift (Parser.mirrors_freeWord? _)).bind_eq
    fun name r' => ?_))
  rw [Cursor.here_displaced]
  cases name with
  | none => exact mirrors_throw ⟨.missingSiteName, .emptyAt r.cursor.here.stop⟩ _
  | some name =>
    refine mirrors_cursor_bind ?_
    rw [Cursor.rest_displaced, List.length_map]
    refine (mirrors_liftAll (mirrors_members h _ r')).map fun is is' his => ?_
    rw [ItemKind.change, ← Item.bareAll, his, Item.bareAll, ← ItemKind.change]

/-! ### Conditionals -/

theorem mirrors_closeChain (opening : Opening) :
    Mirrors f id (closeChain opening) (closeChain (opening.displaced f)) r := by
  have hunclosed : Mirrors f id (report ⟨.unclosedConditional opening.text, opening.range⟩)
      (report ⟨.unclosedConditional opening.text, opening.range.displaced f⟩) r :=
    mirrors_report ⟨.unclosedConditional opening.text, opening.range⟩
  have hother : ∀ kind : TokenKind, Mirrors f id
      (if kind.closesBranch then return ()
        else report ⟨.unclosedConditional opening.text, opening.range⟩)
      (if kind.closesBranch then return ()
        else report ⟨.unclosedConditional opening.text, opening.range.displaced f⟩) r :=
    fun kind => .ite (fun _ => .pure rfl) fun _ => hunclosed
  refine mirrors_cursor_bind ?_
  rw [Cursor.kind?_displaced, Cursor.found_displaced, Cursor.here_displaced]
  cases r.cursor.kind? with
  | none => exact hunclosed
  | some kind =>
    cases kind with
    | directive word =>
      cases word with
      | chain family word =>
        cases word with
        | endif =>
          refine .ite (fun _ => mirrors_advance) fun _ => ?_
          exact (mirrors_report ⟨.mixedConditional (r.cursor.found.getD "") opening.text,
            r.cursor.here⟩).bind_eq fun _ _ => mirrors_advance
        | _ => exact hother _
      | _ => exact hother _
    | _ => exact hother _

section Bodies

variable {expr : Parser Expr} (hexpr : ∀ c, Parser.Mirrors f Expr.bare expr expr c)
  {body : StateM Reading (List Item)} (hbody : ∀ r, MirrorsAll f Item.bareAll body body r)

theorem mirrors_bodyBind {k l : List Item → ItemParser α} {body : StateM Reading (List Item)}
    (hbody : ∀ r, MirrorsAll f Item.bareAll body body r)
    (hk : ∀ is is' r, Item.changeAll .bare is' = Item.changeAll .bare is → Mirrors f seen (k is) (l is') r) :
    Mirrors f seen (liftM body >>= k) (liftM body >>= l) r :=
  (mirrors_liftAll (hbody r)).bind hk

include hexpr hbody

theorem mirrors_laterBranches (opening : Opening) (limit : Nat) (r : Reading) :
    Mirrors f (Chain.change .bare) (laterBranches opening expr body limit)
      (laterBranches (opening.displaced f) expr body limit) r := by
  have hclose : ∀ r, Mirrors f (Chain.change .bare) (do closeChain opening; return .done)
      (do closeChain (opening.displaced f); return .done) r :=
    fun r => (mirrors_closeChain opening).bind_eq fun _ _ => .pure rfl
  induction limit generalizing r with
  | zero => exact .pure rfl
  | succ limit ih =>
    refine mirrors_cursor_bind ?_
    rw [Cursor.kind?_displaced]
    cases r.cursor.kind? with
    | none => exact hclose r
    | some kind =>
      cases kind with
      | directive word =>
        cases word with
        | chain family word =>
          cases word with
          | elseif =>
            refine .ite (fun _ => mirrors_advance_bind ?_) fun _ => hclose r
            refine (mirrors_lift (Parser.mirrors_exprCondition hexpr)).bind fun e e' _ he => ?_
            refine mirrors_bodyBind hbody fun is is' r' his => ?_
            refine (ih r').bind fun rest rest' _ hrest => .pure ?_
            rw [Chain.change, he, his, hrest, Chain.change]
          | otherwise =>
            refine .ite (fun _ => mirrors_advance_bind ?_) fun _ => hclose r
            refine mirrors_bodyBind hbody fun is is' r' his => ?_
            refine (mirrors_closeChain opening).bind_eq fun _ _ => .pure ?_
            rw [Chain.change, his, Chain.change]
          | _ => exact hclose r
        | _ => exact hclose r
      | _ => exact hclose r

theorem mirrors_conditional (family : Family) (word : DirectiveWord) :
    Mirrors f (ItemKind.change .bare) (conditional family word expr body)
      (conditional family word expr body) r := by
  refine mirrors_cursor_bind ?_
  rw [Cursor.found_displaced, Cursor.here_displaced]
  refine (mirrors_lift (Parser.mirrors_openingCondition hexpr word)).bind fun e e' _ he => ?_
  refine mirrors_bodyBind hbody fun is is' r' his => mirrors_cursor_bind ?_
  rw [Cursor.rest_displaced, List.length_map]
  refine (mirrors_laterBranches hexpr hbody
    ⟨family, r.cursor.found.getD "", r.cursor.here⟩ _ r').bind fun rest rest' _ hrest => .pure ?_
  rw [ItemKind.change, Chain.change, he, his, hrest, ItemKind.change, Chain.change]

omit hexpr

/-! ### Macros and blocks -/

theorem mirrors_macroDecl (isList : Bool) :
    Mirrors f (ItemKind.change .bare) (macroDecl isList body) (macroDecl isList body) r := by
  have hrest : ∀ (ss ss' : List Signature) (r : Reading),
      ss'.map (Signature.change .bare) = ss.map (Signature.change .bare) →
      Mirrors f (ItemKind.change .bare)
        (do
          let opening := (← cursor).here
          Parser.expect (.mark .openBrace) .bodyStart
          let items ← body
          if !(← takeIf (.mark .closeBrace)) then report ⟨.unclosedMacro, opening⟩
          return .macroDecl isList ss items)
        (do
          let opening := (← cursor).here
          Parser.expect (.mark .openBrace) .bodyStart
          let items ← body
          if !(← takeIf (.mark .closeBrace)) then report ⟨.unclosedMacro, opening⟩
          return .macroDecl isList ss' items) r := by
    intro ss ss' r hss
    refine mirrors_cursor_bind ((mirrors_lift (Parser.mirrors_expect _ _)).bind_eq fun _ r' => ?_)
    refine mirrors_bodyBind hbody fun is is' r'' his => ?_
    refine (mirrors_takeIf _).bind_eq fun closed _ => ?_
    have hdecl : ItemKind.change .bare (.macroDecl isList ss' is') =
        ItemKind.change .bare (.macroDecl isList ss is) := by
      rw [ItemKind.change, hss, his, ItemKind.change]
    rw [Cursor.here_displaced]
    refine .ite (fun _ => ?_) fun _ => ?_
    · exact (mirrors_report ⟨.unclosedMacro, r.cursor.here⟩).bind_eq fun _ _ => .pure hdecl
    · exact .pure hdecl
  refine mirrors_advance_bind ?_
  cases isList with
  | true =>
    refine mirrors_cursor_bind ?_
    rw [Cursor.rest_displaced, List.length_map]
    exact (mirrors_lift (Parser.mirrors_signatures _ _)).bind hrest
  | false =>
    exact (mirrors_lift Parser.mirrors_signature).bind fun s s' r hs => hrest [s] [s'] r (by
      rw [List.map_cons, hs, List.map_cons])

theorem mirrors_block : Mirrors f (ItemKind.change .bare) (block body) (block body) r := by
  refine mirrors_cursor_bind (mirrors_advance_bind (mirrors_bodyBind hbody fun is is' _ his => ?_))
  refine (mirrors_takeIf _).bind_eq fun _ _ => ?_
  rw [Cursor.here_displaced]
  refine .ite (fun _ => .pure ?_) fun _ => mirrors_throw ⟨.unclosedBlock, r.cursor.here⟩ _
  rw [ItemKind.change, his, ItemKind.change]

end Bodies

/-! ### Items of one level -/

theorem mirrors_some {p : ItemParser ItemKind} (h : Mirrors f (ItemKind.change .bare) p p r) :
    Mirrors f bareKind? (do return some (← p)) (do return some (← p)) r :=
  h.map fun k k' hk => by rw [bareKind?, Option.map_some, hk, Option.map_some]

theorem mirrors_exprItem (v : Vocabulary) (levels : Nat) :
    Mirrors f bareKind? (do return some (.expr (← Parser.expression v levels false)))
      (do return some (.expr (← Parser.expression v levels false))) r := by
  refine (mirrors_lift (Parser.mirrors_expression v levels false _)).map fun e e' he => ?_
  have he' : Item.Change.bare.expr e' = Item.Change.bare.expr e := he
  rw [bareKind?, Option.map_some, ItemKind.change, he', Option.map_some, ItemKind.change]

theorem mirrors_unexpected (scope : Scope) :
    Mirrors f bareKind? (unexpected scope) (unexpected scope) r := by
  refine mirrors_cursor_bind ?_
  rw [Cursor.found_displaced, Cursor.here_displaced]
  exact (mirrors_report ⟨.unexpected r.cursor.found scope.body, r.cursor.here⟩).bind_eq fun _ _ =>
    mirrors_advance_bind (.pure rfl)

section Levels

variable (v : Vocabulary) (levels : Nat) {deeper : Deeper}
  (hdeeper : ∀ next ∈ deeper, ∀ scope r, Mirrors f bareItem? (next scope) (next scope) r)
include hdeeper

theorem mirrors_nested {parse : (Scope → ItemParser (Option Item)) → ItemParser α}
    (h : ∀ next ∈ deeper, Mirrors f seen (parse next) (parse next) r) :
    Mirrors f seen (nested deeper parse) (nested deeper parse) r := by
  cases deeper with
  | none => exact mirrors_lift (Parser.mirrors_fail _ _)
  | some next => exact h next rfl

theorem mirrors_directiveAnywhere (scope : Scope) (word : DirectiveWord) :
    Mirrors f bareKind? (directiveAnywhere v levels deeper scope word)
      (directiveAnywhere v levels deeper scope word) r := by
  have hconditional : ∀ family, Mirrors f bareKind?
      (nested deeper fun next => do
        return some (← conditional family word (Parser.expression v (levels - 1) true)
          (allItems (next scope) endsBranch)))
      (nested deeper fun next => do
        return some (← conditional family word (Parser.expression v (levels - 1) true)
          (allItems (next scope) endsBranch))) r := fun family =>
    mirrors_nested hdeeper fun next hnext => mirrors_some (mirrors_conditional
      (Parser.mirrors_expression v _ true) (mirrors_allItems (hdeeper next hnext scope) _) family word)
  unfold directiveAnywhere
  dsimp only
  cases hplain : Parser.plainDirective? v levels word with
  | some p =>
    refine (mirrors_lift (Parser.mirrors_plainDirective? hplain)).map fun d d' hd => ?_
    rw [bareKind?, Option.map_some, ItemKind.change, hd, Option.map_some, ItemKind.change]
  | none =>
    cases word with
    | chain family word =>
      cases word with
      | opening =>
        cases family with
        | document => exact hconditional .document
        | macroBody => exact hconditional .macroBody
      | _ => cases family <;> exact mirrors_unexpected scope
    | ifdef => exact hconditional .document
    | ifndef => exact hconditional .document
    | ifarg => exact hconditional .macroBody
    | bodyOp op =>
      exact mirrors_advance_bind ((mirrors_lift (Parser.mirrors_name _)).bind_eq fun _ _ => .pure rfl)
    | unique => exact mirrors_exprItem v levels
    | unknown =>
      refine mirrors_cursor_bind ?_
      rw [Cursor.found_displaced, Cursor.here_displaced]
      exact (mirrors_report ⟨.unknownDirective (r.cursor.found.getD ""), r.cursor.here⟩).bind_eq
        fun _ _ => mirrors_advance_bind (.pure rfl)
    | _ => exact mirrors_unexpected scope

theorem mirrors_directive (scope : Scope) (word : DirectiveWord) :
    Mirrors f bareKind? (directive v levels deeper scope word) (directive v levels deeper scope word) r := by
  refine mirrors_cursor_bind ((mirrors_directiveAnywhere v levels hdeeper scope word).bind
    fun k k' _ hk => ?_)
  rw [Cursor.found_displaced, Cursor.here_displaced]
  refine .ite (fun _ => ?_) fun _ => ?_
  · exact (mirrors_report ⟨.directiveOutsideMacro (r.cursor.found.getD ""), r.cursor.here⟩).bind_eq
      fun _ _ => .pure rfl
  · exact .pure hk

theorem mirrors_macroItem (scope : Scope) (isList : Bool) :
    Mirrors f bareKind? (macroItem deeper scope isList) (macroItem deeper scope isList) r := by
  refine mirrors_cursor_bind ((mirrors_nested hdeeper fun next hnext => mirrors_macroDecl
    (mirrors_allItems (hdeeper next hnext _) _) isList).bind fun k k' _ hk => ?_)
  rw [Cursor.here_displaced]
  refine .ite (fun _ => ?_) fun _ => ?_
  · exact (mirrors_report ⟨.nestedMacro, r.cursor.here⟩).bind_eq fun _ _ => .pure rfl
  refine .pure ?_
  rw [bareKind?, Option.map_some, hk, Option.map_some]

theorem mirrors_leaf (scope : Scope) (t : Token) :
    Mirrors f bareKind? (leaf v levels deeper scope t) (leaf v levels deeper scope (t.displaced f)) r := by
  have hexpr := Parser.mirrors_expression (f := f) v levels
  have hother : ∀ kind : TokenKind, Mirrors f bareKind?
      (if kind == .mark .openBrace && scope.body == .listBody then
        nested deeper fun next => do
          let body := allItems (next { scope with body := .delimited }) (· == .mark .closeBrace)
          return some (← block body)
      else if kind.startsExpression then return some (.expr (← Parser.expression v levels false))
      else unexpected scope)
      (if kind == .mark .openBrace && scope.body == .listBody then
        nested deeper fun next => do
          let body := allItems (next { scope with body := .delimited }) (· == .mark .closeBrace)
          return some (← block body)
      else if kind.startsExpression then return some (.expr (← Parser.expression v levels false))
      else unexpected scope) r := fun kind =>
    .ite (fun _ => mirrors_nested hdeeper fun next hnext =>
        mirrors_some (mirrors_block (mirrors_allItems (hdeeper next hnext _) _)))
      fun _ => .ite (fun _ => mirrors_exprItem v levels) fun _ => mirrors_unexpected scope
  have hmarked : Mirrors f bareKind? (do return some (.parameter (← Parser.markedParameter v)))
      (do return some (.parameter (← Parser.markedParameter v))) r :=
    (mirrors_lift (Parser.mirrors_markedParameter v)).bind_eq fun _ _ => .pure rfl
  unfold leaf
  dsimp only
  rw [Token.kind_displaced, Token.text_displaced, Token.range_displaced]
  cases t.kind with
  | keyword k =>
    cases k with
    | prm => exact mirrors_some (mirrors_lift (Parser.mirrors_declaration (hexpr true) scope .prm))
    | localPrm => exact mirrors_some (mirrors_lift (Parser.mirrors_declaration (hexpr true) scope .localPrm))
    | existingPrm => exact mirrors_some (mirrors_lift (Parser.mirrors_existing (hexpr true)))
    | macroDecl => exact mirrors_macroItem hdeeper scope false
    | site => exact hother _
  | directive word =>
    cases word with
    | list => exact mirrors_macroItem hdeeper scope true
    | _ => exact mirrors_directive v levels hdeeper scope _
  | mark m =>
    cases m with
    | atSign => exact hmarked
    | bang => exact hmarked
    | closeBrace =>
      exact (mirrors_report ⟨.strayCloseBrace, t.range⟩).bind_eq fun _ _ => mirrors_advance_bind (.pure rfl)
    | _ => exact hother _
  | assign op =>
    refine (mirrors_lift (Parser.mirrors_equation (hexpr true) op)).map fun e e' he => ?_
    have he' : Item.Change.bare.equation e' = Item.Change.bare.equation e := he
    rw [bareKind?, Option.map_some, ItemKind.change, he', Option.map_some, ItemKind.change]
  | ident => exact mirrors_some (mirrors_lift (Parser.mirrors_wordItem v levels scope t.text))
  | _ => exact hother _

theorem mirrors_itemKind (scope : Scope) (r : Reading) :
    Mirrors f bareKind? (itemKind v levels deeper scope) (itemKind v levels deeper scope) r := by
  refine mirrors_cursor_bind ?_
  rw [Cursor.peek?_displaced]
  cases r.cursor.peek? 0 with
  | none => exact mirrors_unexpected scope
  | some t =>
    rw [Option.map_some]
    dsimp only
    rw [Token.kind_displaced]
    refine .ite (fun _ => mirrors_some (mirrors_site (mirrors_located fun r => ?_))) fun _ =>
      mirrors_leaf v levels hdeeper scope t
    refine mirrors_cursor_bind ?_
    rw [Cursor.peek?_displaced]
    cases r.cursor.peek? 0 with
    | none => exact .pure rfl
    | some t => exact mirrors_leaf v levels hdeeper _ t

end Levels

/-- **An item is read the same wherever its tokens stand**, and the same faults are reported. -/
theorem mirrors_item (v : Vocabulary) (levels : Nat) (scope : Scope) (r : Reading) :
    Mirrors f bareItem? (item v levels scope) (item v levels scope) r := by
  induction levels generalizing scope r with
  | zero => exact mirrors_located (mirrors_itemKind v 0 (fun next h => by cases h) scope) r
  | succ levels ih =>
    refine mirrors_located (mirrors_itemKind v (levels + 1) ?_ scope) r
    rintro next ⟨⟩
    exact ih

end ItemParser

/-- **A text is read the same wherever its tokens stand**: its items differ in places only, and the same
faults are reported at the displaced places. -/
theorem Parsed.itemsOf_displaced (v : Vocabulary) {f : Nat → Nat} (hf : f 0 = 0) (tokens : List Token)
    (textEnd : Nat) :
    Item.bareAll (itemsOf v (tokens.map (·.displaced f)) (f textEnd)).1 =
        Item.bareAll (itemsOf v tokens textEnd).1 ∧
      (itemsOf v (tokens.map (·.displaced f)) (f textEnd)).2 =
        (itemsOf v tokens textEnd).2.map (·.displaced f) := by
  have hstart : (⟨⟨tokens.map (·.displaced f), 0, f textEnd⟩, []⟩ : Reading) =
      Reading.displaced f ⟨⟨tokens, 0, textEnd⟩, []⟩ := by
    rw [Reading.displaced, Cursor.displaced, hf]
    rfl
  have h := ItemParser.mirrors_allItems (f := f)
    (ItemParser.mirrors_item v maxNesting ⟨.topLevel, false⟩) (fun _ => false) ⟨⟨tokens, 0, textEnd⟩, []⟩
  simp only [itemsOf]
  rw [hstart]
  exact ⟨h.result, congrArg Reading.reported h.reading⟩

end ControlFile
