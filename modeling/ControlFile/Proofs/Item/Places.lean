import ControlFile.Proofs.Expr.Places
import ControlFile.Proofs.Item.Complete

/-!
# Where the parts of a statement stand

The parts of an item that keep a place in the text: the calls in its expressions, the heads of a macro,
and the items in it.  `ItemKind.places` has them from left to right, and `Item.Encloses` says that they
lie in the item, one behind the other.

A statement has no parts but calls, and these stand at the tokens that are consumed for it.
-/

namespace ControlFile

/-! ### Places -/

def Directive.places : Directive → List Extent
  | .prm _ equation => equation.places
  | .out expr => expr.places
  | _ => []

def Directive.CallsPlaced : Directive → Prop
  | .prm _ equation => equation.CallsPlaced
  | .out expr => expr.CallsPlaced
  | _ => True

def Condition.places : Condition → List Extent
  | .expr e => e.places
  | _ => []

def Condition.CallsPlaced : Condition → Prop
  | .expr e => e.CallsPlaced
  | _ => True

/-- The parts of a conditional, from its first condition on. -/
def Chain.places : Chain → List Extent
  | .done => []
  | .otherwise items => items.map (·.range)
  | .branch condition items rest => condition.places ++ (items.map (·.range) ++ rest.places)

def Chain.CallsPlaced : Chain → Prop
  | .done | .otherwise _ => True
  | .branch condition _ rest => condition.CallsPlaced ∧ rest.CallsPlaced

/-- The places of the parts of an item: of its calls, its heads and the items directly in it. -/
def ItemKind.places : ItemKind → List Extent
  | .keyword _ none | .bodyOp .. => []
  | .keyword _ (some q) | .equation q | .assignment _ q => q.places
  | .expr e => e.places
  | .parameter p | .declaration _ p => p.places
  | .existing a => a.equation.places
  | .siteStatement s => s.slots.flatMap Parameter.places
  | .directive d => d.places
  | .site _ items | .block items => items.map (·.range)
  | .macroDecl _ signatures items => signatures.map (·.range) ++ items.map (·.range)
  | .conditional _ chain => chain.places

/-- In the expressions of an item, calls in arguments lie inside the calls around them. -/
def ItemKind.CallsPlaced : ItemKind → Prop
  | .keyword _ none | .bodyOp .. | .site .. | .block _ | .macroDecl .. => True
  | .keyword _ (some q) | .equation q | .assignment _ q => q.CallsPlaced
  | .expr e => e.CallsPlaced
  | .parameter p | .declaration _ p => p.CallsPlaced
  | .existing a => a.equation.CallsPlaced
  | .siteStatement s => ∀ p ∈ s.slots, p.CallsPlaced
  | .directive d => d.CallsPlaced
  | .conditional _ chain => chain.CallsPlaced

/-- The parts of the item lie in it, one behind the other. -/
structure Item.Encloses (i : Item) : Prop where
  parts : Extent.Row i.range.start i.range.stop i.kind.places
  calls : i.kind.CallsPlaced

/-- What is read of an item stands at the tokens. -/
def ItemKind.Lays (ts : List Token) (k : ItemKind) : Prop :=
  Token.Lays ts k.places (k.CallsPlaced ∧ k.Everywhere Item.Encloses)

/-! ### Rows of values -/

/-- The calls in the values stand at the tokens. -/
def LaysAll (ts : List Token) (ps : List Parameter) : Prop :=
  Token.Lays ts (ps.flatMap Parameter.places) (∀ p ∈ ps, p.CallsPlaced)

theorem LaysAll.nil (ts : List Token) : LaysAll ts [] := Token.Lays.nil ts (List.forall_mem_nil _)

theorem Token.Lays.cons {us vs : List Token} {p : Parameter} {ps : List Parameter}
    (h : Token.Lays us p.places p.CallsPlaced) (h' : LaysAll vs ps) : LaysAll (us ++ vs) (p :: ps) :=
  (h.append h').imp List.forall_mem_cons.2

theorem Token.Lays.single {ts : List Token} {p : Parameter}
    (h : Token.Lays ts p.places p.CallsPlaced) : LaysAll ts [p] := by
  have hcons := h.cons (.nil [])
  rwa [List.append_nil] at hcons

theorem laysAll_siteStatement {ts : List Token} {s : SiteStatement} (h : LaysAll ts s.slots) :
    (ItemKind.siteStatement s).Lays ts := h.imp fun h => ⟨h, trivial⟩

/-- What has been consumed is what lies between the current token and the end of the last one. -/
theorem Cursor.Moves.hull_eq {c c' : Cursor} {ts : List Token} (h : c.Moves ts c') (hts : ts ≠ []) :
    Token.hull ts = ⟨c.here.start, c'.lastEnd⟩ := by
  obtain ⟨t, us, rfl⟩ := List.exists_cons_of_ne_nil hts
  rw [Token.hull_cons, Cursor.here_cons h.rest, h.lastEnd]
  rfl

namespace Parser

variable {α β : Type} {L : Nat} {c : Cursor} {p : Parser α} {f : α → Parser β}

/-! ### Steps without parts -/

theorem Reads.of_ensures {Q R : List Token → α → Prop} (h : Reads L p c Q)
    (hR : Ensures p c fun a c' => ∃ ts, c.Moves ts c' ∧ R ts a) : Reads L p c R := by
  intro hc
  have hp := h hc
  cases hrun : p c with
  | error d c' =>
    rw [hrun] at hp
    exact hp
  | ok a c' => exact hR a c' hrun

theorem Reads.and_ensures {Q : List Token → α → Prop} {R : α → Cursor → Prop} (h : Reads L p c Q)
    (hR : Ensures p c R) : Reads L p c fun ts a => Q ts a ∧ ∃ c', c.Moves ts c' ∧ R a c' := by
  intro hc
  have hp := h hc
  cases hrun : p c with
  | error d c' =>
    rw [hrun] at hp
    exact hp
  | ok a c' =>
    rw [hrun] at hp
    obtain ⟨ts, hmoves, hq⟩ := hp
    exact ⟨ts, hmoves, hq, c', hmoves, hR a c' hrun⟩

theorem Reads.advance_any : Reads L Parser.advance c fun _ _ => True := by
  obtain ⟨ts, hts⟩ := Cursor.Moves.exists_advance c
  exact .of_ok rfl hts trivial

/-- Nothing has a place in what is consumed first. -/
theorem Reads.skip {Q : List Token → α → Prop} {rs : β → List Extent} {P : β → Prop}
    (hp : Reads L p c Q)
    (hf : ∀ a c', Reads L (f a) c' fun ts b => Token.Lays ts (rs b) (P b)) :
    Reads L (p >>= f) c fun ts b => Token.Lays ts (rs b) (P b) := by
  refine .bind (hp.imp fun us a _ c' _ => ?_)
  exact (hf a c').imp fun _ _ h => h.behind us

/-- What is read does not depend on what is consumed. -/
theorem Reads.result {Q : List Token → α → Prop} {P : β → Prop} (hp : Reads L p c Q)
    (hf : ∀ a c', Reads L (f a) c' fun _ b => P b) : Reads L (p >>= f) c fun _ b => P b :=
  .bind (hp.imp fun _ a _ c' _ => hf a c')

theorem Reads.pure_any {a : α} {Q : List Token → α → Prop} (h : Q [] a) :
    Reads L (Pure.pure a : Parser α) c Q := .of_ok rfl (.refl c) h

/-! ### Equations and values -/

/-- The calls of an expression stand at the tokens that are consumed. -/
theorem lays_expression (v : Vocabulary) (levels : Nat) (juxtapose : Bool) (c : Cursor) :
    Reads L (expression v levels juxtapose) c fun ts e => Token.Lays ts e.places e.CallsPlaced := by
  refine (reads_expression v levels juxtapose c).of_ensures ((shows_expression levels juxtapose c).mono
    fun e c' h => ?_)
  obtain ⟨ts, hmoves, hall⟩ := h
  exact ⟨ts, hmoves, e.lays hall⟩

theorem lays_literalValue (c : Cursor) : Reads L literalValue c fun ts value =>
    Token.Lays ts value.places value.CallsPlaced := by
  refine .skip reads_signedLiteral? fun o c' => ?_
  cases o with
  | some value => exact .pure_any (.nil _ trivial)
  | none => exact .pure_any (.nil _ trivial)

theorem lays_markedParameter (v : Vocabulary) (c : Cursor) : Reads L (markedParameter v) c
    fun ts p => Token.Lays ts p.places p.CallsPlaced := by
  refine .skip reads_refinement fun mark c₁ => ?_
  refine .skip (reads_parameterName? v) fun n c₂ => ?_
  refine .bind ((lays_literalValue c₂).imp fun us value hvalue c' _ => .pure_any ?_)
  rw [List.append_nil]
  exact hvalue

section Statements

variable {expr : Parser Expr}
variable (hexpr : ∀ c, Reads L expr c fun ts e => Token.Lays ts e.places e.CallsPlaced)
include hexpr

theorem lays_equation (op : AssignOp) (c : Cursor) :
    Reads L (equation expr op) c fun ts q => Token.Lays ts q.places q.CallsPlaced := by
  refine .skip .advance_any fun _ c₁ => ?_
  refine .bind ((hexpr c₁).imp fun us body hbody c₂ _ => ?_)
  have hbehind : Reads L (do
      expect (.mark .semicolon) .equationEnd
      if ← takeIf (.mark .colon) then return ⟨op, body, some (← uncertainty)⟩
      else return ⟨op, body, none⟩ : Parser Equation) c₂ fun _ q => q.body = body :=
    .result (.expect_token _ _) fun _ _ => .result (.takeIf_token _) fun _ _ =>
      .ite (fun _ => .result reads_uncertainty fun _ _ => .pure_any rfl) fun _ => .pure_any rfl
  refine hbehind.imp fun vs q hq => ?_
  obtain ⟨op', body', u⟩ := q
  obtain rfl : body' = body := hq
  exact hbody.before vs

theorem lays_declaration (scope : Scope) (kind : VariableScope) (c : Cursor) :
    Reads L (declaration expr scope kind) c fun ts k => k.Lays ts := by
  refine .skip .advance_any fun _ c₁ => ?_
  refine .skip reads_refinement fun mark c₂ => ?_
  refine .skip (reads_name .variable) fun n c₃ => ?_
  refine .get_bind ?_
  have hrest : ∀ (value : Value) us c', Token.Lays us value.places value.CallsPlaced → Reads L
      (if (value.isPresent || scope.inMacro) = true then
          pure (ItemKind.declaration kind ⟨mark, some n, value⟩)
        else failExpected (.valueOf n) : Parser ItemKind) c' fun ts k => k.Lays (us ++ ts) := by
    refine fun value us c' h => .ite (fun _ => .pure_any ?_) fun _ => .failExpected _
    rw [List.append_nil]
    exact h.imp fun h => ⟨h, trivial⟩
  refine .ite (fun _ => ?_) fun _ => ?_
  · refine .bind ((lays_equation hexpr .set c₃).imp fun us q hq c' _ => ?_)
    exact .pure_bind (hrest (.equation q) us c' hq)
  · exact .bind ((lays_literalValue c₃).imp fun us value h c' _ => hrest value us c' h)

theorem lays_existing (c : Cursor) : Reads L (existing expr) c fun ts k => k.Lays ts := by
  refine .skip .advance_any fun _ c₁ => ?_
  refine .skip reads_refinement fun mark c₂ => ?_
  refine .skip (reads_name .parameter) fun n c₃ => ?_
  refine .get_bind ?_
  split
  · refine .bind ((lays_equation hexpr _ c₃).imp fun us q hq c' _ => .pure_any ?_)
    rw [List.append_nil]
    exact hq.imp fun h => ⟨h, trivial⟩
  · exact .failExpected _

theorem lays_exprCondition (c : Cursor) :
    Reads L (exprCondition expr) c fun ts condition =>
      Token.Lays ts condition.places condition.CallsPlaced := by
  refine .skip (.takeIf_token _) fun _ c₁ => ?_
  refine .bind ((hexpr c₁).imp fun us e he c₂ _ => ?_)
  have hbehind : Reads L (do
      expect (.mark .semicolon) .conditionEnd
      return .expr e : Parser Condition) c₂ fun _ condition => condition = .expr e :=
    .result (.expect_token _ _) fun _ _ => .pure_any rfl
  refine hbehind.imp fun vs condition h => ?_
  subst h
  exact he.before vs

/-! ### Sites -/

theorem lays_valueSlot (v : Vocabulary) (scope : Scope) (fixed : Bool) (c : Cursor) :
    Reads L (valueSlot v expr scope fixed) c fun ts p => Token.Lays ts p.places p.CallsPlaced := by
  refine .assume fun hc => ?_
  refine .get_bind (.ite (fun _ => ?_) fun _ => ?_)
  · refine .bind ((lays_equation hexpr .set c).imp fun us q hq c' _ => .pure_any ?_)
    rw [List.append_nil]
    exact hq
  · refine .skip reads_refinement fun mark c₁ => ?_
    refine .ite (fun _ => .failAt fun _ => hc.here) fun _ => ?_
    refine .skip (reads_parameterName? v) fun n c₂ => ?_
    refine .bind ((lays_literalValue c₂).imp fun us value hvalue c' _ => ?_)
    refine .ite (fun _ => .pure_any ?_) fun _ => .failExpected _
    rw [List.append_nil]
    exact hvalue

end Statements

section Slots

variable {slot : Parser Parameter}
variable (hslot : ∀ c, Reads L slot c fun ts p => Token.Lays ts p.places p.CallsPlaced)
include hslot

theorem lays_occModifiers (limit : Nat) (c : Cursor) :
    Reads L (occModifiers slot limit) c fun ts ms => LaysAll ts (ms.map (·.value)) := by
  induction limit generalizing c with
  | zero => exact .pure_any (.nil [])
  | succ limit ih =>
    refine .get_bind ?_
    split
    · refine .skip .advance_any fun _ c₁ => ?_
      refine .bind ((hslot c₁).imp fun us p hp c₂ _ => ?_)
      refine .bind ((ih c₂).imp fun vs ms hms c' _ => .pure_any ?_)
      rw [List.append_nil]
      exact hp.cons hms
    · exact .pure_any (.nil [])

theorem lays_occupancy {wordEnd : Nat} (hend : wordEnd ≤ L) (c : Cursor) :
    Reads L (occupancy slot wordEnd) c fun ts o =>
      LaysAll ts (o.value :: o.modifiers.map (·.value)) := by
  refine .skip (reads_freeWord? ?_) fun atom c₁ => ?_
  · intro k hk
    rw [eq_of_beq hk]
    rfl
  · cases atom with
    | none => exact .failAt fun _ => Extent.inside_emptyAt hend
    | some atom =>
      refine .bind ((hslot c₁).imp fun us p hp c₂ _ => ?_)
      refine .get_bind (.bind ((lays_occModifiers hslot _ c₂).imp fun vs ms hms c' _ => .pure_any ?_))
      rw [List.append_nil]
      exact hp.cons hms

theorem lays_adp (word : AdpWord) (c : Cursor) :
    Reads L (adp slot word) c fun ts p => Token.Lays ts p.places p.CallsPlaced := by
  exact .get_bind (.ite (fun _ => .skip .advance_any fun _ c' => hslot c') fun _ => .failExpected _)

theorem lays_adps (words : Adps AdpWord) (c : Cursor) :
    Reads L (words.mapM (adp slot)) c fun ts ps => LaysAll ts ps.toList := by
  have hadp := lays_adp hslot
  refine .bind ((hadp _ _).imp fun t₁ p₁ h₁ c _ => ?_)
  refine .bind ((hadp _ _).imp fun t₂ p₂ h₂ c _ => ?_)
  refine .bind ((hadp _ _).imp fun t₃ p₃ h₃ c _ => ?_)
  refine .bind ((hadp _ _).imp fun t₄ p₄ h₄ c _ => ?_)
  refine .bind ((hadp _ _).imp fun t₅ p₅ h₅ c _ => ?_)
  refine .bind ((hadp _ _).imp fun t₆ p₆ h₆ c _ => .pure_any ?_)
  exact h₁.cons (h₂.cons (h₃.cons (h₄.cons (h₅.cons (h₆.cons (.nil []))))))

end Slots

section SiteStatements

variable {expr : Parser Expr}
variable (hexpr : ∀ c, Reads L expr c fun ts e => Token.Lays ts e.places e.CallsPlaced)
include hexpr

theorem lays_siteStatement (v : Vocabulary) (scope : Scope) (word : SiteWord) (c : Cursor) :
    Reads L (siteStatement v expr scope word) c fun ts k => k.Lays ts := by
  refine .assume fun hc => ?_
  refine .get_bind (.skip .advance_any fun _ c₁ => ?_)
  have hslot := lays_valueSlot hexpr v scope
  have hone : ∀ fixed (k : Parameter → SiteStatement), (∀ p, (k p).slots = [p]) →
      Reads L (do return .siteStatement (k (← valueSlot v expr scope fixed)) : Parser ItemKind) c₁
        fun ts k => k.Lays ts := by
    intro fixed k hk
    refine .bind ((hslot fixed c₁).imp fun us p hp c' _ => .pure_any ?_)
    rw [List.append_nil]
    exact laysAll_siteStatement (hk p ▸ hp.single)
  cases word with
  | axis a => exact hone false (.coordinate a) fun _ => rfl
  | occ =>
    refine .bind ((lays_occupancy (hslot false) hc.here.2 c₁).imp fun us o ho c' _ => .pure_any ?_)
    rw [List.append_nil]
    exact laysAll_siteStatement ho
  | scalar s => exact hone s.isFixed (.scalar s) fun _ => rfl
  | adps =>
    refine .bind ((lays_adps (hslot false) _ c₁).imp fun us ps hps c' _ => .pure_any ?_)
    rw [List.append_nil]
    exact laysAll_siteStatement hps
  | occupancy w => exact .failAt fun _ => hc.here
  | adp w => exact .failAt fun _ => hc.here

end SiteStatements

/-! ### Items that start with an identifier -/

theorem lays_wordItem (v : Vocabulary) (levels : Nat) (scope : Scope) (word : String) (c : Cursor) :
    Reads L (wordItem v levels scope word) c fun ts k => k.Lays ts := by
  have hexpr := lays_expression (L := L) v levels
  have hitem : ∀ c, Reads L (do return .expr (← expression v levels false) : Parser ItemKind) c
      fun ts k => k.Lays ts := by
    intro c
    refine .bind ((hexpr false c).imp fun us e he c' _ => .pure_any ?_)
    rw [List.append_nil]
    exact he.imp fun h => ⟨h, trivial⟩
  refine .get_bind (.ite (fun _ => hitem c) fun _ => ?_)
  split
  · exact lays_siteStatement (hexpr true) v scope _ c
  · refine .ite (fun _ => .skip .advance_any fun _ c₁ => .get_bind (.ite (fun _ => ?_) fun _ => ?_))
      fun _ => ?_
    · refine .bind ((lays_equation (hexpr true) .set c₁).imp fun us q hq c' _ => .pure_any ?_)
      rw [List.append_nil]
      exact hq.imp fun h => ⟨h, trivial⟩
    · exact .pure_any (.nil _ ⟨trivial, trivial⟩)
    · split
      · refine .skip .advance_any fun _ c₁ => ?_
        refine .bind ((lays_equation (hexpr true) _ c₁).imp fun us q hq c' _ => .pure_any ?_)
        rw [List.append_nil]
        exact hq.imp fun h => ⟨h, trivial⟩
      · exact hitem c

/-! ### Heads of macros -/

theorem range_signature (c : Cursor) :
    Ensures signature c fun s c' => s.range = ⟨c.here.start, c'.lastEnd⟩ := by
  refine .get_bind (.bind fun byReference c₁ _ => ?_)
  refine .get_bind (.ite (fun _ => ?_) fun _ => ?_)
  · refine .bind fun n c₂ _ => ?_
    refine .get_bind (.ite (fun _ => ?_) fun _ => ?_)
    · exact .bind fun params c₃ _ => .get_bind (.pure rfl)
    · exact .get_bind (.pure rfl)
  · exact .failExpected _ _

/-- A head stands at all tokens that are consumed for it. -/
theorem lays_signature (c : Cursor) :
    Reads L signature c fun ts s => Token.Lays ts [s.range] True := by
  refine ((reads_signature c).and_ensures (range_signature c)).imp fun ts s h => ?_
  obtain ⟨htakes, c', hmoves, hrange⟩ := h
  have hts : ts ≠ [] := List.ne_nil_of_length_pos htakes.length
  rw [hrange, ← hmoves.hull_eq hts]
  exact ⟨.single hts, fun _ => trivial⟩

theorem lays_signatures (limit : Nat) (c : Cursor) :
    Reads L (signatures limit) c fun ts ss => Token.Lays ts (ss.map (·.range)) True := by
  induction limit generalizing c with
  | zero => exact .pure_any (.nil _ trivial)
  | succ limit ih =>
    refine .bind ((lays_signature c).imp fun us s hs c₁ _ => ?_)
    refine .bind ((Reads.takeIf_token _).imp fun vs _ _ c₂ _ => ?_)
    refine .get_bind (.ite (fun _ => ?_) fun _ => .pure_any ?_)
    · refine .bind ((ih c₂).imp fun ws ss hss c' _ => .pure_any ?_)
      rw [List.append_nil]
      exact (hs.append (hss.behind vs)).imp fun _ => trivial
    · rw [List.append_nil]
      exact hs.before vs

/-! ### Directives -/

theorem lays_openingCondition {expr : Parser Expr}
    (hexpr : ∀ c, Reads L expr c fun ts e => Token.Lays ts e.places e.CallsPlaced)
    (word : DirectiveWord) (c : Cursor) : Reads L (openingCondition expr word) c fun ts condition =>
      Token.Lays ts condition.places condition.CallsPlaced := by
  refine .skip .advance_any fun _ c₁ => ?_
  cases word with
  | ifdef =>
    exact .skip (.takeIf_token _) fun _ _ => .skip (reads_name _) fun _ _ => .pure_any (.nil _ trivial)
  | ifndef => exact .skip (reads_name _) fun _ _ => .pure_any (.nil _ trivial)
  | ifarg =>
    refine .skip (reads_name _) fun _ c₂ => ?_
    exact .skip (reads_argumentTest c₂) fun _ _ => .pure_any (.nil _ trivial)
  | _ => exact lays_exprCondition hexpr c₁

theorem lays_plainDirective? (v : Vocabulary) (levels : Nat) {word : DirectiveWord}
    {parse : Parser Directive} (hparse : plainDirective? v levels word = some parse) (c : Cursor) :
    Reads L parse c fun ts d => Token.Lays ts d.places d.CallsPlaced := by
  have hexpr := lays_expression (L := L) v levels
  unfold plainDirective? at hparse
  split at hparse <;> cases hparse <;> refine .skip .advance_any fun _ c₁ => ?_
  · exact .skip (reads_includePath c₁) fun _ _ => .pure_any (.nil _ trivial)
  · refine .skip (.expect_token _ _) fun _ c₂ => ?_
    refine .get_bind (.skip (reads_deletedNames _ c₂) fun _ _ => ?_)
    exact .skip (.expect_token _ _) fun _ _ => .pure_any (.nil _ trivial)
  · exact .skip (reads_name _) fun _ _ => .pure_any (.nil _ trivial)
  · exact .skip (reads_name _) fun _ _ => .pure_any (.nil _ trivial)
  · exact .pure_any (.nil _ trivial)
  · refine .skip (reads_name _) fun n c₂ => ?_
    refine .get_bind (.ite (fun _ => ?_) fun _ => .failExpected _)
    refine .bind ((lays_equation (hexpr true) .set c₂).imp fun us q hq c' _ => .pure_any ?_)
    rw [List.append_nil]
    exact hq
  · refine .bind ((hexpr false c₁).imp fun us e he c' _ => .pure_any ?_)
    rw [List.append_nil]
    exact he

end Parser

end ControlFile
