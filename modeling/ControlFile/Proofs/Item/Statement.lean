import ControlFile.Item.Statement
import ControlFile.Proofs.Expr.Consumption

/-!
# What the parsers of statements consume

As the parsers of expressions, those of statements consume no words of conditionals and nothing that is
confined to the bodies of macros, and without the unique mark among the tokens there is none in what
they read.  The one exception is the condition behind the word that opens a conditional:
`reads_openingCondition` is about what follows that word.

None of them reads an item that has items in it (`ItemKind.IsSimple`).
-/

namespace ControlFile

/-- There are no items in it. -/
def ItemKind.IsSimple (k : ItemKind) : Prop := ∀ P, k.Everywhere P

namespace Parser

variable {L : Nat} {c : Cursor}

theorem Reads.failAt {α : Type} {Q : List Token → α → Prop} {range : Extent} {fault : Fault}
    (h : c.InText L → range.Inside L) : Reads L (failAt range fault : Parser α) c Q :=
  .of_error rfl h

theorem reads_name (role : NameRole) :
    Reads L (name role) c (Plain 1 fun n => n ≠ uniqueMark) := by
  refine .get_bind (.ite (fun hname => ?_) fun _ => .failExpected _)
  rw [Bool.or_eq_true, Cursor.isAt_iff, Cursor.isAt_iff] at hname
  rcases hname with hk | hk
  · exact (Reads.takeText hk rfl).mono fun n hn => hn (Or.inl rfl)
  · exact (Reads.takeText hk rfl).mono fun n hn => hn (Or.inr rfl)

section Statements

variable {expr : Parser Expr} (hexpr : ∀ c, Reads L expr c (Plain 1 Expr.Unmarked))
include hexpr

/-! ### Variables -/

theorem reads_declaration (scope : Scope) (kind : VariableScope) {k : TokenKind}
    (hk : c.kind? = some k) (hw : k.isPlain = true) :
    Reads L (declaration expr scope kind) c (Plain 1 ItemKind.Unmarked) := by
  refine .advance_bind hk hw (reads_refinement.andThen fun mark _ => ?_)
  refine (reads_name .variable).weaken.andThen fun n c' => ?_
  refine .get_bind ?_
  have hrest : ∀ (value : Value) c'', Reads L
      (if (value.isPresent || scope.inMacro) = true then
          pure (ItemKind.declaration kind ⟨mark, some n, value⟩)
        else failExpected (.valueOf n) : Parser ItemKind) c''
      (Plain 0 fun item => value.Unmarked → n ≠ uniqueMark → True → item.Unmarked) :=
    fun value c'' => .ite
      (fun _ => .pure fun hvalue hn _ => ItemKind.unmarked_declaration
        (Parameter.unmarked (fun h => hn (Option.some.inj h)) hvalue mark) kind)
      fun _ => .failExpected _
  refine .ite (fun hset => ?_) fun _ => ?_
  · refine (reads_equation hexpr (Cursor.isAt_iff.1 hset)).weaken.andThen fun e c'' => .pure_bind ?_
    exact (hrest (.equation e) c'').mono fun item hitem he => hitem (Value.unmarked_equation he)
  · exact reads_literalValue.andThen fun value c'' => hrest value c''

theorem reads_existing {k : TokenKind} (hk : c.kind? = some k) (hw : k.isPlain = true) :
    Reads L (existing expr) c (Plain 1 ItemKind.Unmarked) := by
  refine .advance_bind hk hw (reads_refinement.andThen fun mark _ => ?_)
  refine (reads_name .parameter).weaken.andThen fun n c' => ?_
  refine .get_bind ?_
  split
  · exact (reads_equation hexpr ‹_›).weaken.andThen fun e _ =>
      .pure fun he hn _ => ItemKind.unmarked_existing hn he
  · exact .failExpected _

/-! ### Sites -/

theorem reads_valueSlot (v : Vocabulary) (scope : Scope) (fixed : Bool) (c : Cursor) :
    Reads L (valueSlot v expr scope fixed) c (Plain 0 Parameter.Unmarked) := by
  refine .assume fun hc => ?_
  refine .get_bind (.ite (fun hset => ?_) fun _ => ?_)
  · exact (reads_equation hexpr (Cursor.isAt_iff.1 hset)).weaken.andThen fun e _ =>
      .pure Parameter.unmarked_ofEquation
  · refine reads_refinement.andThen fun mark _ => .ite (fun _ => .failAt fun _ => hc.here) fun _ => ?_
    refine (reads_parameterName? v).andThen fun n _ => ?_
    refine reads_literalValue.andThen fun value _ => .ite (fun _ => ?_) fun _ => .failExpected _
    exact .pure fun hvalue hn _ => Parameter.unmarked hn hvalue mark

end Statements

theorem not_isDirective_of_continuesWord {t : Token} (h : continuesWord t = true) :
    t.kind.isDirective = false := by
  unfold continuesWord at h
  rw [Bool.and_eq_true] at h
  obtain ⟨-, h⟩ := h
  split at h <;> simp_all [TokenKind.isDirective]

theorem reads_freeWord? {starts : TokenKind → Bool}
    (hstarts : ∀ k, starts k = true → k.isDirective = false) :
    Reads L (freeWord? starts) c (Plain 0 fun n => n ≠ some uniqueMark) := by
  cases hrest : c.rest with
  | nil =>
    refine .of_ok (a := none) ?_ (.refl c) ⟨Nat.le_refl _, List.forall_mem_nil _, fun _ => by simp⟩
    rw [freeWord?, hrest]
  | cons t ts =>
    by_cases hunique : t.kind = .directive .unique
    · refine .of_ok (a := some t.text) ?_ (.advance hrest) ⟨Nat.zero_le _, ?_, fun h => ?_⟩
      · rw [freeWord?, hrest]
        simp only [if_pos hunique]
      · exact List.forall_mem_singleton.2 (by rw [hunique]; rfl)
      · exact absurd hunique (h t (by simp)).1
    · by_cases hstart : starts t.kind = true
      · have hadvance : c.advance.rest = ts := by rw [Cursor.advance, hrest]
        have hwords : ∀ s ∈ t :: ts.takeWhile continuesWord, s.kind.isDirective = false := by
          intro s hs
          rcases List.mem_cons.1 hs with rfl | hs
          · exact hstarts _ hstart
          · exact not_isDirective_of_continuesWord (List.all_eq_true.1 List.all_takeWhile s hs)
        refine .of_ok (a := some (String.join (t.text :: (ts.takeWhile continuesWord).map (·.text))))
          ?_ ((Cursor.Moves.advance hrest).trans (.skipWhile continuesWord _))
          ⟨Nat.zero_le _, ?_, fun h => ?_⟩
        · rw [freeWord?, hrest]
          simp only [if_neg hunique, if_pos hstart]
        · rw [hadvance]
          exact fun s hs => TokenKind.isPlain_of_not_isDirective (hwords s hs)
        · rw [hadvance] at h
          have hjoin : IsUnmarkedText
              (String.join ((t :: ts.takeWhile continuesWord).map (·.text))) := by
            refine isUnmarkedText_join fun text htext => ?_
            obtain ⟨s, hs, rfl⟩ := List.mem_map.1 htext
            exact (h s hs).2 (hwords s hs)
          exact fun heq => hjoin.ne_uniqueMark (Option.some.inj heq)
      · refine .of_ok (a := none) ?_ (.refl c)
          ⟨Nat.le_refl _, List.forall_mem_nil _, fun _ => by simp⟩
        rw [freeWord?, hrest]
        simp only [if_neg hunique, if_neg hstart]

theorem kind?_of_siteWord? {word : SiteWord} (h : siteWord? c = some word) :
    c.kind? = some .ident := by
  unfold siteWord? at h
  split at h
  · rename_i t ht
    split at h
    · rw [Cursor.kind?, ht, Option.map_some, ‹t.kind = .ident›]
    · cases h
  · cases h

section Slots

variable {slot : Parser Parameter} (hslot : ∀ c, Reads L slot c (Plain 0 Parameter.Unmarked))
include hslot

theorem reads_occModifiers (limit : Nat) (c : Cursor) :
    Reads L (occModifiers slot limit) c (Plain 0 fun ms => ∀ m ∈ ms, m.value.Unmarked) := by
  induction limit generalizing c with
  | zero => exact .pure (by simp)
  | succ limit ih =>
    refine .get_bind ?_
    split
    · refine (Reads.advance_bind (kind?_of_siteWord? ‹_›) rfl ?_).weaken
      refine (hslot _).andThen fun value c' => (ih c').andThen fun ms _ => .pure fun hms hvalue => ?_
      simpa using ⟨hvalue, hms⟩
    · exact .pure (by simp)

theorem reads_occupancy {wordEnd : Nat} (hend : wordEnd ≤ L) (c : Cursor) :
    Reads L (occupancy slot wordEnd) c
      (Plain 0 fun o => o.atom ≠ uniqueMark ∧ o.value.Unmarked ∧
        ∀ m ∈ o.modifiers, m.value.Unmarked) := by
  refine (reads_freeWord? ?_).andThen fun atom c' => ?_
  · intro k hk
    rw [eq_of_beq hk]
    rfl
  · cases atom with
    | none => exact .failAt fun _ => Extent.inside_emptyAt hend
    | some atom =>
      refine (hslot c').andThen fun value c'' => ?_
      refine .get_bind ((reads_occModifiers hslot _ c'').andThen fun ms _ => ?_)
      exact .pure fun hms hvalue hatom => ⟨fun h => hatom (congrArg some h), hvalue, hms⟩

theorem reads_adp (word : AdpWord) (c : Cursor) :
    Reads L (adp slot word) c (Plain 0 Parameter.Unmarked) := by
  refine .get_bind ?_
  refine .ite (fun hword => (Reads.advance_bind (kind?_of_siteWord? hword) rfl (hslot _)).weaken)
    fun _ => .failExpected _

theorem reads_adps (words : Adps AdpWord) (c : Cursor) :
    Reads L (words.mapM (adp slot)) c (Plain 0 fun ps => ∀ p ∈ ps.toList, p.Unmarked) := by
  have hadp := reads_adp hslot
  refine (hadp _ _).andThen fun p c => ?_
  refine (hadp _ _).andThen fun p₂ c => ?_
  refine (hadp _ _).andThen fun p₃ c => ?_
  refine (hadp _ _).andThen fun p₄ c => ?_
  refine (hadp _ _).andThen fun p₅ c => ?_
  refine (hadp _ _).andThen fun p₆ c => ?_
  refine .pure fun h₆ h₅ h₄ h₃ h₂ h => ?_
  simpa [Adps.toList] using ⟨h, h₂, h₃, h₄, h₅, h₆⟩

end Slots

section SiteStatements

variable {expr : Parser Expr} (hexpr : ∀ c, Reads L expr c (Plain 1 Expr.Unmarked))
include hexpr

theorem reads_siteStatement (v : Vocabulary) (scope : Scope) (word : SiteWord) {k : TokenKind}
    (hk : c.kind? = some k) (hw : k.isPlain = true) :
    Reads L (siteStatement v expr scope word) c (Plain 1 ItemKind.Unmarked) := by
  refine .assume fun hc => ?_
  refine .get_bind (.advance_bind hk hw ?_)
  have hslot := reads_valueSlot hexpr v scope
  cases word with
  | axis a =>
    exact (hslot false _).andThen fun p _ => .pure fun hp =>
      ItemKind.unmarked_siteStatement (SiteStatement.unmarked_coordinate hp a)
  | occ =>
    exact (reads_occupancy (hslot false) hc.here.2 _).andThen fun o _ => .pure fun ho =>
      ItemKind.unmarked_siteStatement (SiteStatement.unmarked_occupancy ho.1 ho.2.1 ho.2.2)
  | scalar s =>
    exact (hslot _ _).andThen fun p _ => .pure fun hp =>
      ItemKind.unmarked_siteStatement (SiteStatement.unmarked_scalar hp s)
  | adps =>
    exact (reads_adps (hslot false) _ _).andThen fun ps _ => .pure fun hps =>
      ItemKind.unmarked_siteStatement (SiteStatement.unmarked_adps hps)
  | occupancy w => exact .failAt fun _ => hc.here
  | adp w => exact .failAt fun _ => hc.here

end SiteStatements

/-! ### Items that start with an identifier -/

theorem reads_wordItem (v : Vocabulary) (levels : Nat) (scope : Scope) {t : Token} {ts : List Token}
    (hrest : c.rest = t :: ts) (hk : t.kind = .ident) :
    Reads L (wordItem v levels scope t.text) c (Plain 1 ItemKind.Unmarked) := by
  have hkind : c.kind? = some .ident := by rw [Cursor.kind?_cons hrest, hk]
  have hw : t.kind.isPlain = true := by rw [hk]; rfl
  have hexpr := reads_expression (L := L) v levels
  have hitem : ∀ c, Reads L (do return .expr (← expression v levels false) : Parser ItemKind) c
      (Plain 1 ItemKind.Unmarked) := fun c =>
    (hexpr false c).andThen fun e _ => .pure ItemKind.unmarked_expr
  refine .get_bind (.ite (fun _ => hitem c) fun _ => ?_)
  split
  · exact reads_siteStatement (hexpr true) v scope _ hkind rfl
  · refine .ite (fun _ => ?_) fun _ => ?_
    · refine .advance_bind hkind rfl (.get_bind (.ite (fun hset => ?_) fun _ => ?_))
      · refine (reads_equation (hexpr true) (Cursor.isAt_iff.1 hset)).weaken.andThen fun e _ =>
          .pure fun he => ItemKind.unmarked_keyword ?_ t.text
        rintro f hf
        cases hf
        exact he
      · exact .pure (ItemKind.unmarked_keyword (by simp) t.text)
    · split
      · rename_i op hassign
        refine .advance_token_bind hrest hw ?_
        have hop : c.advance.kind? = some (.assign op) := by rw [Cursor.kind?_advance, hassign]
        exact (reads_equation (hexpr true) hop).weaken.andThen fun e _ => .pure fun he ht =>
          ItemKind.unmarked_assignment (ht.2 (by rw [hk]; rfl)).ne_uniqueMark he
      · exact hitem c

/-! ### Macros -/

/-- Whether a token of the kind may occur in the head of a macro. -/
def isHead : TokenKind → Bool
  | .ident | .mark .ampersand | .mark .comma | .mark .openParen | .mark .closeParen => true
  | _ => false

theorem isPlain_of_isHead {k : TokenKind} (h : isHead k = true) : k.isPlain = true := by
  unfold isHead at h
  split at h <;> first | rfl | cases h

theorem ne_openBrace_of_isHead {k : TokenKind} (h : isHead k = true) : k ≠ .mark .openBrace := by
  rintro rfl
  cases h

theorem reads_macroParams (limit : Nat) (c : Cursor) :
    Reads L (macroParams limit) c (Takes isHead 0 fun _ => True) := by
  induction limit generalizing c with
  | zero => exact .pure trivial
  | succ limit ih =>
    have hrest : ∀ (n : Option String) (byReference : Bool) c, Reads L
        (do
          if ← takeIf (.mark .comma) then return ⟨n, byReference⟩ :: (← macroParams limit)
          else
            expect (.mark .closeParen) .parametersEnd
            return [⟨n, byReference⟩] : Parser (List MacroParam)) c (Takes isHead 0 fun _ => True) := by
      intro n byReference c
      refine (Reads.takeIf rfl).andThen fun comma c' => .ite (fun _ => ?_) fun _ => ?_
      · exact (ih c').andThen fun _ _ => .pure fun _ _ => trivial
      · exact (Reads.expect rfl _).weaken.andThen fun _ _ => .pure fun _ _ => trivial
    refine (Reads.takeIf rfl).andThen fun byReference c' => ?_
    refine .get_bind (.ite (fun hident => ?_) fun _ => ?_)
    · refine (Reads.takeText (Cursor.isAt_iff.1 hident) rfl).weaken.andThen fun n c'' => ?_
      exact .pure_bind ((hrest (some n) byReference c'').mono fun _ _ _ _ => trivial)
    · exact .pure_bind ((hrest none byReference c').mono fun _ _ _ => trivial)

theorem reads_macroParamList (hk : c.kind? = some (.mark .openParen)) :
    Reads L macroParamList c (Takes isHead 1 fun _ => True) := by
  refine .advance_bind hk rfl ((Reads.takeIf rfl).andThen fun _ c' => ?_)
  refine .ite (fun _ => .pure fun _ => trivial) fun _ => ?_
  exact .get_bind ((reads_macroParams _ c').mono fun _ _ _ => trivial)

theorem reads_signature (c : Cursor) : Reads L signature c (Takes isHead 1 fun _ => True) := by
  refine .get_bind ((Reads.takeIf rfl).before fun byReference c' => ?_)
  refine .get_bind (.ite (fun hident => ?_) fun _ => .failExpected _)
  refine (Reads.takeText (Cursor.isAt_iff.1 hident) rfl).andThen fun n c'' => .get_bind ?_
  refine .ite (fun hparen => ?_) fun _ => .pure_bind (.get_bind (.pure fun _ _ => trivial))
  rw [Bool.and_eq_true, Cursor.isAt_iff] at hparen
  exact (reads_macroParamList hparen.1).weaken.andThen fun _ _ =>
    .get_bind (.pure fun _ _ _ => trivial)

theorem reads_signatures (limit : Nat) (c : Cursor) :
    Reads L (signatures limit) c (Takes isHead 0 fun _ => True) := by
  induction limit generalizing c with
  | zero => exact .pure trivial
  | succ limit ih =>
    refine (reads_signature c).weaken.andThen fun s c₁ => ?_
    refine (Reads.takeIf (K := isHead) rfl).andThen fun comma c' => ?_
    refine .get_bind (.ite (fun _ => ?_) fun _ => .pure fun _ _ => trivial)
    exact (ih c').andThen fun _ _ => .pure fun _ _ _ => trivial

/-! ### Directives and conditions -/

theorem reads_deletedNames (limit : Nat) (c : Cursor) :
    Reads L (deletedNames limit) c (Plain 0 fun ns => ∀ n ∈ ns, n ≠ uniqueMark) := by
  induction limit generalizing c with
  | zero => exact .pure (by simp)
  | succ limit ih =>
    refine .get_bind (.ite (fun hident => ?_) fun _ => .pure (by simp))
    refine (Reads.takeText (Cursor.isAt_iff.1 hident) rfl).weaken.andThen fun n _ => ?_
    refine (Reads.takeIf rfl).andThen fun _ c' => ?_
    refine (ih c').andThen fun ns _ => ?_
    refine .pure fun hns _ hn => ?_
    simpa using ⟨hn (Or.inl rfl), hns⟩

theorem reads_exprCondition {expr : Parser Expr} (hexpr : ∀ c, Reads L expr c (Plain 1 Expr.Unmarked))
    (c : Cursor) : Reads L (exprCondition expr) c (Plain 0 Condition.Unmarked) := by
  refine (Reads.takeIf rfl).andThen fun _ c' => ?_
  refine (hexpr c').weaken.andThen fun _ _ => ?_
  refine (Reads.expect rfl _).weaken.andThen fun _ _ => ?_
  exact .pure fun _ he _ => Condition.unmarked_expr he

/-- Only the test of an argument looks at what is confined to the body of a macro, and no word of a
conditional is consumed. -/
def isTested (k : TokenKind) : Bool := k.chainWord?.isNone

theorem isTested_of_isPlain {k : TokenKind} (h : k.isPlain = true) : isTested k = true := by
  simpa [isTested] using (TokenKind.isPlain_iff.1 h).1

theorem Takes.words_of_isTested {α : Type} {n : Nat} {F : α → Prop} {ts : List Token} {a : α}
    (h : Takes isTested n F ts a) : chainWords ts = [] :=
  chainWords_eq_nil fun t ht => by simpa [isTested] using h.kinds t ht

theorem reads_argumentTest (c : Cursor) : Reads L argumentTest c (Takes isTested 0 fun _ => True) := by
  refine .get_bind ?_
  split
  · refine (Reads.advance_bind ‹_› rfl ?_).weaken
    exact .pure trivial
  · exact (Reads.takeText ‹_› rfl).weaken.andThen fun _ _ => .pure fun _ => trivial
  · exact .failExpected _

/-- The condition of the first branch, behind the word that opens the conditional. -/
theorem reads_openingCondition {expr : Parser Expr}
    (hexpr : ∀ c, Reads L expr c (Plain 1 Expr.Unmarked)) (word : DirectiveWord) {t : Token}
    {ts : List Token} (hrest : c.rest = t :: ts) :
    Reads L (openingCondition expr word) c fun us condition =>
      ∃ vs, us = t :: vs ∧ Takes isTested 0 Condition.Unmarked vs condition ∧
        (word ≠ .ifarg → ∀ s ∈ vs, s.kind.isConfined = false) := by
  have hplain : ∀ {p : Parser Condition}, Reads L p c.advance (Plain 0 Condition.Unmarked) →
      Reads L p c.advance fun vs condition => Takes isTested 0 Condition.Unmarked vs condition ∧
        (word ≠ .ifarg → ∀ s ∈ vs, s.kind.isConfined = false) := fun h =>
    h.imp fun _ _ hvs => ⟨hvs.widen fun _ => isTested_of_isPlain, fun _ => hvs.not_confined⟩
  refine .advance_behind hrest ?_
  cases word with
  | ifdef =>
    exact hplain <| (Reads.takeIf rfl).andThen fun negated _ => (reads_name _).weaken.andThen fun n _ =>
      .pure fun hn _ => Condition.unmarked_defined hn negated
  | ifndef =>
    exact hplain <| (reads_name _).weaken.andThen fun n _ =>
      .pure fun hn => Condition.unmarked_defined hn true
  | ifarg =>
    refine Reads.imp (Q := Takes isTested 0 Condition.Unmarked) ?_
      fun _ _ hvs => ⟨hvs, fun h => absurd rfl h⟩
    refine ((reads_name _).widen fun _ => isTested_of_isPlain).weaken.andThen fun n _ => ?_
    refine (reads_argumentTest _).andThen fun test _ => ?_
    exact .pure fun _ _ => Condition.unmarked_argument n test
  | _ => exact hplain (reads_exprCondition hexpr _)

theorem reads_includePath (c : Cursor) : Reads L includePath c (Plain 0 fun _ => True) := by
  refine .get_bind ?_
  refine .ite (fun hstring => ?_) fun _ => ?_
  · refine (Reads.takeText (Cursor.isAt_iff.1 hstring) rfl).weaken.andThen fun _ _ => ?_
    exact .pure fun _ => trivial
  · exact .failExpected _

theorem reads_plainDirective? (v : Vocabulary) (levels : Nat) {word : DirectiveWord}
    {parse : Parser Directive} (hparse : plainDirective? v levels word = some parse)
    (hk : c.kind? = some (.directive word)) :
    Reads L parse c
      (Plain 1 fun d => Substitution.Indifferent fun s => d.substitute s) := by
  have hexpr := reads_expression (L := L) v levels
  unfold plainDirective? at hparse
  split at hparse <;> cases hparse <;> refine .advance_bind hk rfl ?_
  · refine (reads_includePath _).andThen fun path _ => .pure fun _ => ?_
    simp only [Directive.substitute]
    exact .const _
  · refine (Reads.expect rfl _).weaken.andThen fun _ _ => ?_
    exact .get_bind <| (reads_deletedNames _ _).andThen fun ns _ => (Reads.expect rfl _).weaken.andThen
      fun _ _ => .pure fun _ hns _ => Directive.unmarked_deleteMacros hns
  · exact (reads_name _).weaken.andThen fun n _ => .pure fun hn => Directive.unmarked_define hn
  · exact (reads_name _).weaken.andThen fun n _ => .pure fun hn => Directive.unmarked_undef hn
  · refine .pure ?_
    simp only [Directive.substitute]
    exact .const _
  · refine (reads_name _).weaken.andThen fun n c' => ?_
    refine .get_bind (.ite (fun hset => ?_) fun _ => .failExpected _)
    exact (reads_equation (hexpr true) (Cursor.isAt_iff.1 hset)).weaken.andThen fun e _ =>
      .pure fun he hn => Directive.unmarked_prm hn he
  · exact (hexpr false _).weaken.andThen fun e _ => .pure Directive.unmarked_out

/-! ### Statements have no items in them -/

theorem Ensures.ite {α : Type} {p p' : Parser α} {Q : α → Cursor → Prop} {b : Prop} [Decidable b]
    (h : b → Ensures p c Q) (h' : ¬b → Ensures p' c Q) : Ensures (if b then p else p') c Q := by
  split
  · exact h ‹_›
  · exact h' ‹_›

section Simple

variable (expr : Parser Expr)

theorem isSimple_declaration (scope : Scope) (kind : VariableScope) :
    Ensures (declaration expr scope kind) c fun k _ => k.IsSimple := by
  refine .advance_bind (.bind fun mark _ _ => ?_)
  refine .bind fun n _ _ => ?_
  refine .get_bind ?_
  have hrest : ∀ (value : Value) c', Ensures
      (if (value.isPresent || scope.inMacro) = true then
          pure (ItemKind.declaration kind ⟨mark, some n, value⟩)
        else failExpected (.valueOf n) : Parser ItemKind) c' fun k _ => k.IsSimple := by
    intro value c'
    split
    · exact .pure fun _ => trivial
    · exact .failExpected _ _
  split
  · exact .bind fun e c' _ => hrest (.equation e) c'
  · exact .bind fun value c' _ => hrest value c'

theorem isSimple_existing : Ensures (existing expr) c fun k _ => k.IsSimple := by
  refine .advance_bind (.bind fun _ _ _ => ?_)
  refine .bind fun n _ _ => ?_
  refine .get_bind ?_
  split
  · exact .bind fun _ _ _ => .pure fun _ => trivial
  · exact .failExpected _ _

theorem isSimple_siteStatement (v : Vocabulary) (scope : Scope) (word : SiteWord) :
    Ensures (siteStatement v expr scope word) c fun k _ => k.IsSimple := by
  refine .get_bind (.advance_bind ?_)
  cases word with
  | axis a => exact .bind fun _ _ _ => .pure fun _ => trivial
  | occ => exact .bind fun _ _ _ => .pure fun _ => trivial
  | scalar s => exact .bind fun _ _ _ => .pure fun _ => trivial
  | adps => exact .bind fun _ _ _ => .pure fun _ => trivial
  | occupancy w => intro k c' h; cases h
  | adp w => intro k c' h; cases h

theorem isSimple_wordItem (v : Vocabulary) (levels : Nat) (scope : Scope) (word : String) :
    Ensures (wordItem v levels scope word) c fun k _ => k.IsSimple := by
  have hitem : ∀ c, Ensures (do return .expr (← expression v levels false) : Parser ItemKind) c
      fun k _ => k.IsSimple := fun c => .bind fun _ _ _ => .pure fun _ => trivial
  refine .get_bind (.ite (fun _ => hitem c) fun _ => ?_)
  split
  · exact isSimple_siteStatement _ v scope _
  · refine .ite (fun _ => .advance_bind (.get_bind (.ite (fun _ => ?_) fun _ => ?_))) fun _ => ?_
    · exact .bind fun _ _ _ => .pure fun _ => trivial
    · exact .pure fun _ => trivial
    · split
      · exact .advance_bind (.bind fun _ _ _ => .pure fun _ => trivial)
      · exact hitem c

end Simple

end Parser

end ControlFile
