import ControlFile.Proofs.Expr.Grouping
import ControlFile.Proofs.Macro.Demands
import Mathlib.Data.List.Basic

/-!
# The words of copies

Demands are *closed* if the words that are made of arguments meet them: the name that an argument becomes,
and its first word.  Then copies meet them too, as long as the arguments and the unique names do
(`Item.meets_substitute`).
-/

namespace ControlFile

/-- Whether an argument is a name by itself, so that no word has to be made of it. -/
def Argument.isName : Argument → Bool
  | .expr (.ident _) | .parameter ⟨_, some _, _⟩ => true
  | _ => false

/-- What a word is read as: the mark of a parameter, a number, a string or a name. -/
theorem ItemKind.ofWord_cases (word : String) :
    (∃ mark : Refinement, word = mark.symbol ∧ ofWord word = .parameter ⟨mark, none, .absent⟩) ∨
    (∃ value, ofWord word = .expr (.literal value) ∧ value.isNumber = true ∧ value.Legible ∧
      (Decimal.readInt? word.toList ≠ none ∨ Decimal.readNumber? word.toList ≠ none)) ∨
    (∃ cs, word.toList = '\x22' :: cs ++ ['\x22'] ∧
      ofWord word = .expr (.literal (.string (String.ofList cs)))) ∨
    ofWord word = .expr (.ident word) := by
  unfold ofWord
  dsimp only
  split
  · exact .inl ⟨.refined, rfl, rfl⟩
  · exact .inl ⟨.unrefined, rfl, rfl⟩
  · split
    · rename_i n hn
      obtain ⟨hread, hfits⟩ := Option.filter_eq_some_iff.1 hn
      exact .inr (.inl ⟨.integer n, rfl, rfl, hfits, .inl (by rw [hread]; exact Option.some_ne_none n)⟩)
    · split
      · split
        · rename_i x hx
          have hfinite := (Option.filter_eq_some_iff.1 hx).2
          exact .inr (.inl ⟨.decimal x, rfl, rfl, hfinite, .inr (by rw [hx]; exact Option.some_ne_none x)⟩)
        · exact .inr (.inr (.inr rfl))
      · split
        · rename_i hquoted
          simp only [Bool.and_eq_true, decide_eq_true_eq, beq_iff_eq] at hquoted
          obtain ⟨⟨hlength, hhead⟩, hlast⟩ := hquoted
          refine .inr (.inr (.inl ⟨(word.toList.drop 1).dropLast, ?_, rfl⟩))
          obtain ⟨cs, hcs⟩ := List.head?_eq_some_iff.1 hhead
          rw [hcs] at hlength hlast ⊢
          have hne : cs ≠ [] := by
            rintro rfl
            simp at hlength
          rw [List.getLast?_cons_of_ne_nil hne] at hlast
          rw [List.drop_one, List.tail_cons, List.cons_append,
            List.dropLast_append_getLast? _ hlast]
        · exact .inr (.inr (.inr rfl))

/-- The words that are made of arguments meet the demands; and so do arguments and operations in which
names and calls are replaced. -/
structure Demands.Closed (d : Demands) : Prop where
  argument : ∀ {e e' : Expr}, e.Leads e' → d.argument e → d.argument e'
  unary : ∀ {op : UnaryOp} {e e' : Expr}, e.Leads e' → d.operation (.unary op e) →
    d.operation (.unary op e')
  binary : ∀ {op : BinaryOp} {l l' r r' : Expr}, l.Leads l' → r.Leads r' →
    d.operation (.binary op l r) → d.operation (.binary op l' r')
  word : ∀ (a : Argument) (w : String), a.Meets d True → a.toWord? = some w → d.name w
  first : ∀ (a : Argument) (k : ItemKind), a.Meets d True → a.firstWord? = some k → k.Meets d
  mark : d.callee uniqueMark

/-- What is put in the place of parameters and of the unique mark meets the demands.  A parameter may
come to stand for the name of a macro. -/
structure Substitution.Meets (d : Demands) (s : Substitution) : Prop where
  unique : d.name s.unique
  callee : ∀ (n : String) (a : Argument), s.lookup n = some a → d.callee n
  bound : ∀ (n : String) (a : Argument), s.lookup n = some a → a.Meets d True

variable {d : Demands} {s : Substitution} {passed : Prop}

namespace Argument

theorem meets_toExpr? {a : Argument} (ha : a.Meets d passed) {e : Expr} (he : a.toExpr? = some e) :
    e.Meets d passed ∧ e.isCompound = false := by
  cases a with
  | hole => cases he
  | expr f =>
    cases he
    exact ⟨Expr.parenthesized_meets ha.2, f.isCompound_parenthesized⟩
  | equation f =>
    cases he
    exact ⟨Expr.parenthesized_meets (Equation.meets_iff.1 ha), f.body.isCompound_parenthesized⟩
  | parameter p =>
    obtain ⟨mark, n, w⟩ := p
    cases n with
    | some n =>
      cases he
      exact ⟨ha.1 n rfl, rfl⟩
    | none =>
      cases w with
      | literal value =>
        cases he
        exact ⟨ha.2, rfl⟩
      | absent => cases he
      | equation f => cases he

theorem meets_toParameter {a : Argument} (ha : a.Meets d passed) : a.toParameter.Meets d passed := by
  have hnone : ∀ n ∈ (none : Option String), d.name n := by simp
  cases a with
  | hole => exact ⟨hnone, trivial⟩
  | parameter p => exact ha
  | equation e => exact ⟨hnone, ha⟩
  | expr e =>
    cases e with
    | literal value => exact ⟨hnone, ha.2⟩
    | ident n => exact ⟨by rintro _ ⟨⟩; exact ha.2, trivial⟩
    | _ => exact ⟨hnone, ha.2⟩

theorem meets_toUnrefined {a : Argument} (ha : a.Meets d passed) : a.toUnrefined.Meets d passed := by
  unfold toUnrefined
  dsimp only
  split
  · exact Parameter.meets_iff.1 (meets_toParameter ha)
  · exact meets_toParameter ha

theorem meets_toItem? {a : Argument} (ha : a.Meets d True) : ∀ k ∈ a.toItem?, k.Meets d := by
  cases a <;> rintro k ⟨⟩
  · exact Parameter.Meets.mono False.elim ha
  · exact ha.2
  · exact Equation.Meets.mono False.elim ha

end Argument

/-! ### Names -/

namespace Substitution

theorem Meets.name (hs : s.Meets d) (hd : d.Closed) {n m : String} (hn : d.name n)
    (h : s.name n = .ok m) : d.name m := by
  unfold Substitution.name at h
  split at h
  · cases h
    exact hs.unique
  · cases hlookup : s.lookup n with
    | none =>
      rw [hlookup] at h
      cases h
      exact hn
    | some a =>
      rw [hlookup] at h
      dsimp only at h
      cases hword : a.toWord? with
      | none =>
        rw [hword] at h
        cases h
      | some w =>
        rw [hword] at h
        cases h
        exact hd.word a m (hs.bound n a hlookup) hword

/-- What comes to stand for a name that may be that of a macro was written as one. -/
theorem Meets.callee_of_name (hs : s.Meets d) (hd : d.Closed) {n m : String} (h : s.name n = .ok m)
    (hm : d.callee m) : d.callee n := by
  unfold Substitution.name at h
  split at h
  · rename_i hmark
    exact hmark ▸ hd.mark
  · cases hlookup : s.lookup n with
    | none =>
      rw [hlookup] at h
      cases h
      exact hm
    | some a => exact hs.callee n a hlookup

theorem Meets.ident (hs : s.Meets d) {n : String} (hn : d.name n) {e : Expr}
    (h : s.ident n = .ok e) : e.Meets d True ∧ e.isCompound = false := by
  unfold Substitution.ident at h
  split at h
  · cases h
    exact ⟨hs.unique, rfl⟩
  · cases hlookup : s.lookup n with
    | none =>
      rw [hlookup] at h
      cases h
      exact ⟨hn, rfl⟩
    | some a =>
      rw [hlookup] at h
      dsimp only at h
      cases hexpr : a.toExpr? with
      | none =>
        rw [hexpr] at h
        cases h
      | some f =>
        rw [hexpr] at h
        cases h
        exact Argument.meets_toExpr? (hs.bound n a hlookup) hexpr

theorem Meets.name? (hs : s.Meets d) (hd : d.Closed) {n m : Option String}
    (hn : ∀ x ∈ n, d.name x) (h : s.name? n = .ok m) : ∀ x ∈ m, d.name x := by
  cases n with
  | none =>
    cases h
    simp
  | some n =>
    obtain ⟨x, hx, h⟩ := exists_of_bind_eq_ok h
    cases h
    rintro _ ⟨⟩
    exact hs.name hd (hn n rfl) hx

theorem Meets.passedThrough? (hs : s.Meets d) {e : Expr} {a : Argument}
    (h : s.passedThrough? e = some a) : a.Meets d True := by
  cases e with
  | ident n => exact hs.bound n a h
  | _ => cases h

theorem Meets.wholeParameter? (hs : s.Meets d) {mark : Refinement} {n : Option String} {w : Value}
    {p : Parameter} (h : s.wholeParameter? mark n w = some p) : p.Meets d True := by
  cases n with
  | none => cases h
  | some n =>
    cases w with
    | absent =>
      obtain ⟨a, hlookup, rfl⟩ := Option.map_eq_some_iff.1 h
      have ha := Argument.meets_toParameter (hs.bound n a hlookup)
      dsimp only
      split
      · exact ha
      · exact Parameter.meets_iff.1 ha
    | literal value => cases h
    | equation e => cases h

end Substitution

/-! ### Expressions -/

mutual

/-- **A copy of an expression meets the demands**, and holds together as tightly. -/
theorem Expr.meets_substitute (hd : d.Closed) (hs : s.Meets d) {passed : Prop} : ∀ e : Expr,
    e.Meets d passed → ∀ e', e.substitute s = .ok e' → e'.Meets d passed ∧ e.Leads e'
  | .literal value, h, e', hcopy => by
    rw [Expr.substitute] at hcopy
    cases hcopy
    exact ⟨h, .refl _⟩
  | .ident n, h, e', hcopy => by
    rw [Expr.substitute] at hcopy
    have he := hs.ident h hcopy
    exact ⟨he.1.mono fun _ => trivial, .of_word rfl he.2⟩
  | .call n as range, h, e', hcopy => by
    rw [Expr.substitute] at hcopy
    obtain ⟨bs, hbs, hcopy⟩ := exists_of_bind_eq_ok hcopy
    obtain ⟨m, hm, hcopy⟩ := exists_of_bind_eq_ok hcopy
    cases hcopy
    have hbs := Argument.meets_substituteAll hd hs as h.2 bs hbs
    exact ⟨⟨hs.name hd h.1 hm, hbs.mono (Or.imp_right (hs.callee_of_name hd hm))⟩, .of_word rfl rfl⟩
  | .unary op operand, h, e', hcopy => by
    rw [Expr.substitute] at hcopy
    obtain ⟨f, hf, hcopy⟩ := exists_of_bind_eq_ok hcopy
    cases hcopy
    have hoperand := Expr.meets_substitute hd hs operand h.2 f hf
    exact ⟨⟨hd.unary hoperand.2 h.1, hoperand.1⟩, hoperand.2.unary op⟩
  | .binary op lhs rhs, h, e', hcopy => by
    rw [Expr.substitute] at hcopy
    obtain ⟨l, hl, hcopy⟩ := exists_of_bind_eq_ok hcopy
    obtain ⟨r, hr, hcopy⟩ := exists_of_bind_eq_ok hcopy
    cases hcopy
    have hlhs := Expr.meets_substitute hd hs lhs h.2.1 l hl
    have hrhs := Expr.meets_substitute hd hs rhs h.2.2 r hr
    exact ⟨⟨hd.binary hlhs.2 hrhs.2 h.1, hlhs.1, hrhs.1⟩, hlhs.2.binary op rhs r⟩
  | .paren inner, h, e', hcopy => by
    rw [Expr.substitute] at hcopy
    obtain ⟨f, hf, hcopy⟩ := exists_of_bind_eq_ok hcopy
    cases hcopy
    exact ⟨(Expr.meets_substitute hd hs inner h f hf).1, .paren inner f⟩

theorem Argument.meets_substituteAll (hd : d.Closed) (hs : s.Meets d) {passed : Prop} :
    ∀ as : List Argument, Argument.AllMeet d passed as →
      ∀ bs, Argument.substituteAll s as = .ok bs → Argument.AllMeet d passed bs
  | [], _, bs, hcopy => by
    rw [Argument.substituteAll] at hcopy
    cases hcopy
    trivial
  | a :: as, h, bs, hcopy => by
    rw [Argument.substituteAll] at hcopy
    obtain ⟨b, hb, hcopy⟩ := exists_of_bind_eq_ok hcopy
    obtain ⟨cs, hcs, hcopy⟩ := exists_of_bind_eq_ok hcopy
    cases hcopy
    exact ⟨Argument.meets_substitute hd hs a h.1 b hb,
      Argument.meets_substituteAll hd hs as h.2 cs hcs⟩

theorem Argument.meets_substitute (hd : d.Closed) (hs : s.Meets d) {passed : Prop} :
    ∀ a : Argument, a.Meets d passed → ∀ b, a.substitute s = .ok b → b.Meets d passed
  | .hole, _, b, hcopy => by
    rw [Argument.substitute] at hcopy
    cases hcopy
    trivial
  | .expr e, h, b, hcopy => by
    rw [Argument.substitute] at hcopy
    cases hthrough : s.passedThrough? e with
    | some a =>
      rw [hthrough] at hcopy
      cases hcopy
      exact (hs.passedThrough? hthrough).mono fun _ => trivial
    | none =>
      rw [hthrough] at hcopy
      obtain ⟨f, hf, hcopy⟩ := exists_of_bind_eq_ok hcopy
      cases hcopy
      have hmeets := Expr.meets_substitute hd hs e h.2 f hf
      exact ⟨fun hpassed => hd.argument hmeets.2 (h.1 hpassed), hmeets.1⟩
  | .parameter p, h, b, hcopy => by
    rw [Argument.substitute] at hcopy
    obtain ⟨q, hq, hcopy⟩ := exists_of_bind_eq_ok hcopy
    cases hcopy
    exact Parameter.meets_substitute hd hs p h q hq
  | .equation e, h, b, hcopy => by
    rw [Argument.substitute] at hcopy
    obtain ⟨f, hf, hcopy⟩ := exists_of_bind_eq_ok hcopy
    cases hcopy
    exact Equation.meets_substitute hd hs e h f hf

theorem Parameter.meets_substitute (hd : d.Closed) (hs : s.Meets d) {passed : Prop} :
    ∀ p : Parameter, p.Meets d passed → ∀ q, p.substitute s = .ok q → q.Meets d passed
  | ⟨mark, n, w⟩, h, q, hcopy => by
    rw [Parameter.substitute] at hcopy
    cases hwhole : s.wholeParameter? mark n w with
    | some p =>
      rw [hwhole] at hcopy
      cases hcopy
      exact (hs.wholeParameter? hwhole).mono fun _ => trivial
    | none =>
      rw [hwhole] at hcopy
      obtain ⟨m, hm, hcopy⟩ := exists_of_bind_eq_ok hcopy
      obtain ⟨w', hw, hcopy⟩ := exists_of_bind_eq_ok hcopy
      cases hcopy
      exact ⟨hs.name? hd h.1 hm, Value.meets_substitute hd hs w h.2 w' hw⟩

theorem Value.meets_substitute (hd : d.Closed) (hs : s.Meets d) {passed : Prop} :
    ∀ w : Value, w.Meets d passed → ∀ w', w.substitute s = .ok w' → w'.Meets d passed
  | .absent, _, w', hcopy => by
    rw [Value.substitute] at hcopy
    cases hcopy
    trivial
  | .literal value, h, w', hcopy => by
    rw [Value.substitute] at hcopy
    cases hcopy
    exact h
  | .equation e, h, w', hcopy => by
    rw [Value.substitute] at hcopy
    obtain ⟨f, hf, hcopy⟩ := exists_of_bind_eq_ok hcopy
    cases hcopy
    exact Equation.meets_substitute hd hs e h f hf

theorem Equation.meets_substitute (hd : d.Closed) (hs : s.Meets d) {passed : Prop} :
    ∀ e : Equation, e.Meets d passed → ∀ f, e.substitute s = .ok f → f.Meets d passed
  | ⟨op, body, uncertainty⟩, h, f, hcopy => by
    rw [Equation.substitute] at hcopy
    obtain ⟨u, -, hcopy⟩ := exists_of_bind_eq_ok hcopy
    obtain ⟨b, hb, hcopy⟩ := exists_of_bind_eq_ok hcopy
    cases hcopy
    exact (Expr.meets_substitute hd hs body h b hb).1

end

/-! ### Statements -/

theorem SiteStatement.meets_substitute (hd : d.Closed) (hs : s.Meets d) {t t' : SiteStatement}
    (h : t.Meets d) (hcopy : t.substitute s = .ok t') : t'.Meets d := by
  intro q hq
  obtain ⟨p, hp, hpq⟩ := slots_substitute hcopy q hq
  exact Parameter.meets_substitute hd hs p (h p hp) q hpq

theorem Directive.meets_substitute (hd : d.Closed) (hs : s.Meets d) {w w' : Directive}
    (h : w.Meets d) (hcopy : w.substitute s = .ok w') : w'.Meets d := by
  cases w <;> rw [Directive.substitute] at hcopy
  case define n =>
    obtain ⟨m, hm, hcopy⟩ := exists_of_bind_eq_ok hcopy
    cases hcopy
    exact hs.name hd h hm
  case undef n =>
    obtain ⟨m, -, hcopy⟩ := exists_of_bind_eq_ok hcopy
    cases hcopy
    trivial
  case seed => cases hcopy; trivial
  case includeFile path => cases hcopy; trivial
  case deleteMacros names =>
    obtain ⟨ms, -, hcopy⟩ := exists_of_bind_eq_ok hcopy
    cases hcopy
    trivial
  case prm n e =>
    obtain ⟨m, hm, hcopy⟩ := exists_of_bind_eq_ok hcopy
    obtain ⟨f, hf, hcopy⟩ := exists_of_bind_eq_ok hcopy
    cases hcopy
    exact ⟨hs.name hd h.1 hm, Equation.meets_substitute hd hs e h.2 f hf⟩
  case out e =>
    obtain ⟨f, hf, hcopy⟩ := exists_of_bind_eq_ok hcopy
    cases hcopy
    exact (Expr.meets_substitute hd hs e h f hf).1

theorem Condition.meets_substitute (hd : d.Closed) (hs : s.Meets d) {c c' : Condition}
    (h : c.Meets d) (hcopy : c.substitute s = .ok c') : c'.Meets d := by
  cases c with
  | expr e =>
    obtain ⟨f, hf, hcopy⟩ := exists_of_bind_eq_ok hcopy
    cases hcopy
    exact (Expr.meets_substitute hd hs e h f hf).1
  | defined symbol negated =>
    obtain ⟨m, -, hcopy⟩ := exists_of_bind_eq_ok hcopy
    cases hcopy
    trivial
  | argument param test =>
    rw [Condition.substitute] at hcopy
    cases hlookup : s.lookup param with
    | none =>
      rw [hlookup] at hcopy
      cases hcopy
    | some a =>
      rw [hlookup] at hcopy
      cases hcopy
      exact fun _ => trivial

theorem Expr.meets_substituteItem (hd : d.Closed) (hs : s.Meets d) {e : Expr} (h : e.Meets d True)
    {o : Option ItemKind} (hcopy : e.substituteItem s = .ok o) : ∀ k ∈ o, k.Meets d ∧ k.IsLeaf := by
  rw [Expr.substituteItem] at hcopy
  cases hpassed : s.passedThrough? e with
  | some a =>
    rw [hpassed] at hcopy
    cases hcopy
    exact fun k hk => ⟨Argument.meets_toItem? (hs.passedThrough? hpassed) k hk, by
      cases a <;> cases hk <;> trivial⟩
  | none =>
    rw [hpassed] at hcopy
    obtain ⟨f, hf, hcopy⟩ := exists_of_bind_eq_ok hcopy
    cases hcopy
    rintro _ ⟨⟩
    exact ⟨(Expr.meets_substitute hd hs e h f hf).1, trivial⟩

/-! ### Counting unique names -/

section Counts

variable {ε σ α β : Type}

/-- Where at least `k` unique names have been given out, the step gives out more or none, also if it
fails; and `Q` holds of what it gives and of how many there are then.  `I n s` says that there are `n` in
the state `s`, and whatever else is known of it. -/
def Counts (I : Nat → σ → Prop) (k : Nat) (e : EStateM ε σ α) (Q : Nat → α → Prop) : Prop :=
  ∀ n s, k ≤ n → I n s → match e s with
    | .ok a s' => ∃ m, n ≤ m ∧ I m s' ∧ Q m a
    | .error _ s' => ∃ m, n ≤ m ∧ I m s'

namespace Counts

variable {I : Nat → σ → Prop} {k : Nat} {e : EStateM ε σ α} {f : α → EStateM ε σ β}
variable {P : Nat → α → Prop} {Q : Nat → β → Prop}

theorem pure {b : β} (h : ∀ n, k ≤ n → Q n b) : Counts I k (Pure.pure b : EStateM ε σ β) Q :=
  fun n _ hn hs => ⟨n, Nat.le_refl n, hs, h n hn⟩

theorem throw (fault : ε) : Counts I k (throw fault : EStateM ε σ β) Q :=
  fun n _ _ hs => ⟨n, Nat.le_refl n, hs⟩

theorem bind (he : Counts I k e P) (hf : ∀ n, k ≤ n → ∀ a, P n a → Counts I n (f a) Q) :
    Counts I k (e >>= f) Q := by
  intro n s hn hs
  have hstep := he n s hn hs
  have hbind : (e >>= f) s = EStateM.bind e f s := rfl
  rw [hbind, EStateM.bind]
  cases hrun : e s with
  | ok a s' =>
    rw [hrun] at hstep
    obtain ⟨m, hm, hs', ha⟩ := hstep
    have hnext := hf m (Nat.le_trans hn hm) a ha m s' (Nat.le_refl m) hs'
    dsimp only
    cases hrun' : f a s' with
    | ok b s'' =>
      rw [hrun'] at hnext
      obtain ⟨l, hl, hs'', hb⟩ := hnext
      exact ⟨l, Nat.le_trans hm hl, hs'', hb⟩
    | error d s'' =>
      rw [hrun'] at hnext
      obtain ⟨l, hl, hs''⟩ := hnext
      exact ⟨l, Nat.le_trans hm hl, hs''⟩
  | error d s' =>
    rw [hrun] at hstep
    exact hstep

theorem weaken {P' : Nat → α → Prop} (he : Counts I k e P) (h : ∀ n a, P n a → P' n a) :
    Counts I k e P' := by
  intro n s hn hs
  have hstep := he n s hn hs
  cases hrun : e s with
  | ok a s' =>
    rw [hrun] at hstep
    obtain ⟨m, hm, hs', ha⟩ := hstep
    exact ⟨m, hm, hs', h m a ha⟩
  | error d s' =>
    rw [hrun] at hstep
    exact hstep

theorem ite {c : Prop} [Decidable c] {e' : EStateM ε σ α} (h : Counts I k e P)
    (h' : Counts I k e' P) : Counts I k (if c then e else e') P := by
  split
  · exact h
  · exact h'

end Counts

end Counts

/-- Demands that grow with the number of unique names that have been given out, and that these meet. -/
structure Demands.Numbered (D : Nat → Demands) : Prop where
  closed : ∀ k, (D k).Closed
  unique : ∀ k, (D (k + 1)).name (uniqueName (k + 1))
  mono : ∀ k n, k ≤ n → (D k).Entails (D k) (D n)

/-- The item and all items in it meet the demands. -/
abbrev ItemKind.AllMeet (d : Demands) (k : ItemKind) : Prop := k.Meets d ∧ k.Everywhere (Item.Meets d)

theorem ItemKind.IsLeaf.allMeet {k : ItemKind} (hleaf : k.IsLeaf) (h : k.Meets d) : k.AllMeet d := by
  refine ⟨h, ?_⟩
  cases k <;> trivial

namespace Demands.Numbered

variable {D : Nat → Demands} (hD : Numbered D) {k n : Nat} (h : k ≤ n)
include hD h

theorem kind {l : ItemKind} (hl : l.Meets (D k)) : l.Meets (D n) :=
  l.meets_entails (hD.mono k n h) hl hl

theorem everywhere {i : Item} (hi : i.Everywhere (Item.Meets (D k))) :
    i.Everywhere (Item.Meets (D n)) :=
  hi.meets_entails hi (hD.mono k n h)

theorem conditions {c : Chain} (hc : c.Meets (D k)) : c.Meets (D n) :=
  c.meets_entails (hD.mono k n h) hc hc

theorem condition {c : Condition} (hc : c.Meets (D k)) : c.Meets (D n) :=
  (hD.conditions h (c := .branch c [] .done) ⟨hc, trivial⟩).1

theorem chain {c : Chain} (hc : c.Everywhere (Item.Meets (D k))) :
    c.Everywhere (Item.Meets (D n)) :=
  Chain.everywhere_of_all (fun j hj => j.kind.meets_entails (hD.mono k n h) (hj ()) (hj ())) c
    fun _ => hc

theorem allEverywhere {is : List Item} (his : Item.AllEverywhere (Item.Meets (D k)) is) :
    Item.AllEverywhere (Item.Meets (D n)) is :=
  Item.allEverywhere_of_all (fun j hj => j.kind.meets_entails (hD.mono k n h) (hj ()) (hj ())) is
    fun _ => his

theorem all {is : List Item} (his : ∀ i ∈ is, i.Everywhere (Item.Meets (D k))) :
    ∀ i ∈ is, i.Everywhere (Item.Meets (D n)) := fun i hi => hD.everywhere h (his i hi)

theorem operation {e : Expr} (he : (D k).operation e) : (D n).operation e :=
  (hD.mono k n h).operation e he he

theorem callee {m : String} : (D n).callee m ↔ (D k).callee m :=
  ((hD.mono k n h).callee m).trans (and_self_iff)

theorem expr {e : Expr} (he : e.Meets (D k) passed) : e.Meets (D n) passed :=
  e.meets_entails (hD.mono k n h) (fun hpassed => ⟨hpassed, hpassed⟩) he he

theorem argument {a : Argument} (ha : a.Meets (D k) passed) : a.Meets (D n) passed :=
  a.meets_entails (hD.mono k n h) (fun hpassed => ⟨hpassed, hpassed⟩) ha ha

theorem arguments {as : List Argument} (has : Argument.AllMeet (D k) passed as) :
    Argument.AllMeet (D n) passed as :=
  Argument.allMeet_entails (hD.mono k n h) (fun hpassed => ⟨hpassed, hpassed⟩) as has has

/-- The arguments of a macro are looked at as passed. -/
theorem passedArguments {name : String} (hname : (D n).callee name) {as : List Argument}
    {range : Extent} (hcall : (Expr.call name as range).Meets (D k) passed) :
    Argument.AllMeet (D n) True as :=
  hD.arguments h (hcall.2.mono fun _ => .inr ((hD.callee h).1 hname))

theorem substitution (hs : s.Meets (D k)) : s.Meets (D n) where
  unique := (hD.mono k n h).name _ hs.unique hs.unique
  callee m a hm := (hD.callee h).2 (hs.callee m a hm)
  bound m a hm := hD.argument h (hs.bound m a hm)

end Demands.Numbered

/-! ### Copies of items -/

section Copies

variable {D : Nat → Demands} {k : Nat}

namespace Substituting

variable {α : Type}

theorem counts_lift {x : Except Fault α} {Q : Nat → α → Prop}
    (h : ∀ a, x = .ok a → ∀ n, k ≤ n → Q n a) : Counts Eq k (liftM x : Substituting α) Q := by
  rintro n _ hn rfl
  cases x with
  | ok a => exact ⟨n, Nat.le_refl n, rfl, h a rfl n hn⟩
  | error fault => exact ⟨n, Nat.le_refl n, rfl⟩

theorem counts_nextUnique (hD : Demands.Numbered D) :
    Counts Eq k nextUnique fun n u => (D n).name u := by
  rintro n _ _ rfl
  exact ⟨n + 1, Nat.le_succ n, rfl, hD.unique n⟩

/-- What is computed of the copy is a leaf that meets the demands. -/
theorem counts_leaf (hD : Demands.Numbered D) {x : Except Fault α} {g : α → ItemKind}
    (h : ∀ a, x = .ok a → (g a).IsLeaf ∧ (g a).Meets (D k)) :
    Counts Eq k (do return some (g (← x)) : Substituting (Option ItemKind))
      fun n o => ∀ l ∈ o, l.AllMeet (D n) := by
  refine (counts_lift (Q := fun _ a => (g a).IsLeaf ∧ (g a).Meets (D k))
    fun a ha n hn => h a ha).bind fun n hn a ha => .pure fun m hm => ?_
  rintro _ ⟨⟩
  exact ha.1.allMeet (hD.kind (Nat.le_trans hn hm) ha.2)

end Substituting

open Substituting (counts_lift counts_nextUnique counts_leaf)

theorem BodyOp.meets_substitute (hD : Demands.Numbered D) (hs : s.Meets (D k)) (op : BodyOp)
    (param : String) : Counts Eq k (op.substitute s param) fun n o => ∀ l ∈ o, l.AllMeet (D n) := by
  have hleaf : ∀ {o : Option ItemKind}, (∀ l ∈ o, l.IsLeaf ∧ l.Meets (D k)) →
      Counts Eq k (Pure.pure o : Substituting (Option ItemKind)) fun n o => ∀ l ∈ o, l.AllMeet (D n) :=
    fun h => .pure fun n hn l hl => (h l hl).1.allMeet (hD.kind hn (h l hl).2)
  unfold BodyOp.substitute
  cases hlookup : s.lookup param with
  | none => exact hleaf (by rintro _ ⟨⟩; exact ⟨trivial, trivial⟩)
  | some a =>
    have ha := hs.bound param a hlookup
    cases op with
    | argu =>
      refine hleaf fun l hl => ⟨?_, Argument.meets_toItem? ha l hl⟩
      cases a <;> cases hl <;> trivial
    | firstWord =>
      refine hleaf fun l hl => ⟨?_, (hD.closed k).first a l ha hl⟩
      obtain ⟨word, -, rfl⟩ := Option.map_eq_some_iff.1 hl
      exact ItemKind.isLeaf_ofWord word
    | uniqueNotRefine =>
      have hp : a.toUnrefined.Meets (D k) False := (Argument.meets_toUnrefined ha).mono False.elim
      dsimp only
      cases a.toUnrefined.name with
      | some n => exact hleaf (by rintro _ ⟨⟩; exact ⟨trivial, hp⟩)
      | none =>
        refine (counts_nextUnique hD).bind fun n hn u hu => .pure fun m hm => ?_
        rintro _ ⟨⟩
        have hvalue := (Parameter.meets_iff.1 hp).2
        refine ItemKind.IsLeaf.allMeet trivial ⟨?_, ?_⟩
        · rintro _ ⟨⟩
          exact (hD.mono n m hm).name u hu hu
        · exact Value.meets_entails (hD.mono k m (Nat.le_trans hn hm)) False.elim _ hvalue hvalue
    | out =>
      dsimp only
      cases hexpr : a.toExpr? with
      | some e =>
        have he : e.Meets (D k) False := (Argument.meets_toExpr? ha hexpr).1.mono False.elim
        exact hleaf (by rintro _ ⟨⟩; exact ⟨trivial, he⟩)
      | none => exact .throw _

mutual

/-- **Copies of items meet the demands**, as many as there are then. -/
theorem Item.meets_substitute (hD : Demands.Numbered D) {k : Nat} (hs : s.Meets (D k)) :
    ∀ i : Item, i.Everywhere (Item.Meets (D k)) →
      Counts Eq k (i.substitute s) fun n o => ∀ j ∈ o, j.Everywhere (Item.Meets (D n))
  | ⟨kind, range⟩, h => by
    rw [Item.substitute]
    refine (ItemKind.meets_substitute hD hs kind (Item.everywhere_iff.1 h)).bind fun n hn l hl => ?_
    cases l with
    | none => exact .pure fun _ _ => by rintro _ ⟨⟩
    | some l =>
      refine .pure fun m hm => ?_
      rintro _ ⟨⟩
      exact hD.everywhere hm (Item.everywhere_iff.2 (hl l rfl))

theorem ItemKind.meets_substitute (hD : Demands.Numbered D) {k : Nat} (hs : s.Meets (D k)) :
    ∀ l : ItemKind, l.AllMeet (D k) →
      Counts Eq k (l.substitute s) fun n o => ∀ l ∈ o, l.AllMeet (D n)
  | .expr e, h => by
    rw [ItemKind.substitute]
    refine counts_lift fun o ho n hn l hl => ?_
    have hcopy := e.meets_substituteItem (hD.closed k) hs h.1 ho l hl
    exact hcopy.2.allMeet (hD.kind hn hcopy.1)
  | .keyword word none, h => by
    rw [ItemKind.substitute]
    refine .pure fun n hn => ?_
    rintro _ ⟨⟩
    exact ⟨hD.kind hn h.1, trivial⟩
  | .keyword word (some e), h => by
    rw [ItemKind.substitute]
    refine counts_leaf hD fun f hf => ⟨trivial, ?_⟩
    rintro _ ⟨⟩
    exact e.meets_substitute (hD.closed k) hs (h.1 e rfl) f hf
  | .parameter p, h => by
    rw [ItemKind.substitute]
    exact counts_leaf hD fun q hq => ⟨trivial, p.meets_substitute (hD.closed k) hs h.1 q hq⟩
  | .equation e, h => by
    rw [ItemKind.substitute]
    exact counts_leaf hD fun f hf => ⟨trivial, e.meets_substitute (hD.closed k) hs h.1 f hf⟩
  | .assignment n e, h => by
    rw [ItemKind.substitute]
    refine (counts_lift (Q := fun _ _ => True) fun _ _ _ _ => trivial).bind fun n hn m _ => ?_
    exact counts_leaf hD fun f hf =>
      ⟨trivial, e.meets_substitute (hD.closed n) (hD.substitution hn hs) (hD.kind hn h.1) f hf⟩
  | .declaration scope p, h => by
    rw [ItemKind.substitute]
    exact counts_leaf hD fun q hq => ⟨trivial, p.meets_substitute (hD.closed k) hs h.1 q hq⟩
  | .existing a, h => by
    rw [ItemKind.substitute]
    refine (counts_lift (Q := fun _ _ => True) fun _ _ _ _ => trivial).bind fun n hn m _ => ?_
    exact counts_leaf hD fun f hf => ⟨trivial,
      a.equation.meets_substitute (hD.closed n) (hD.substitution hn hs) (hD.kind hn h.1) f hf⟩
  | .site n members, h => by
    rw [ItemKind.substitute]
    refine (counts_lift (Q := fun _ _ => True) fun _ _ _ _ => trivial).bind fun n hn m _ => ?_
    refine (Item.meets_substituteAll hD (hD.substitution hn hs) members (hD.allEverywhere hn h.2)).bind
      fun n' hn' js hjs => ?_
    refine .pure fun m' hm' => ?_
    rintro _ ⟨⟩
    exact ⟨trivial, hD.allEverywhere hm' hjs⟩
  | .siteStatement t, h => by
    rw [ItemKind.substitute]
    exact counts_leaf hD fun t' ht => ⟨trivial, SiteStatement.meets_substitute (hD.closed k) hs h.1 ht⟩
  | .directive w, h => by
    rw [ItemKind.substitute]
    exact counts_leaf hD fun w' hw => ⟨trivial, Directive.meets_substitute (hD.closed k) hs h.1 hw⟩
  | .macroDecl isList signatures body, h => by
    rw [ItemKind.substitute]
    refine .pure fun n hn => ?_
    rintro _ ⟨⟩
    exact ⟨hD.kind hn h.1, hD.allEverywhere hn h.2⟩
  | .conditional family chain, h => by
    rw [ItemKind.substitute]
    refine (Chain.meets_substitute hD hs chain h.1 h.2).bind fun n hn c hc => .pure fun m hm => ?_
    rintro _ ⟨⟩
    exact ⟨hD.kind (l := .conditional family c) hm hc.1, hD.chain hm hc.2⟩
  | .bodyOp op param, _ => by
    rw [ItemKind.substitute]
    exact BodyOp.meets_substitute hD hs op param
  | .block items, h => by
    rw [ItemKind.substitute]
    refine (Item.meets_substituteAll hD hs items h.2).bind fun n hn js hjs => .pure fun m hm => ?_
    rintro _ ⟨⟩
    exact ⟨trivial, hD.allEverywhere hm hjs⟩

theorem Chain.meets_substitute (hD : Demands.Numbered D) {k : Nat} (hs : s.Meets (D k)) :
    ∀ c : Chain, c.Meets (D k) → c.Everywhere (Item.Meets (D k)) →
      Counts Eq k (c.substitute s) fun n c => c.Meets (D n) ∧ c.Everywhere (Item.Meets (D n))
  | .done, _, _ => by
    rw [Chain.substitute]
    exact .pure fun _ _ => ⟨trivial, trivial⟩
  | .otherwise items, _, h => by
    rw [Chain.substitute]
    exact (Item.meets_substituteAll hD hs items h).bind fun n hn js hjs =>
      .pure fun m hm => ⟨trivial, hD.allEverywhere hm hjs⟩
  | .branch condition items rest, hc, h => by
    rw [Chain.substitute]
    refine (counts_lift (Q := fun _ c => c.Meets (D k)) fun c hcopy _ _ => Condition.meets_substitute
      (hD.closed k) hs hc.1 hcopy).bind fun n hn c hcopy => ?_
    refine (Item.meets_substituteAll hD (hD.substitution hn hs) items (hD.allEverywhere hn h.1)).bind
      fun n' hn' js hjs => ?_
    have hk := Nat.le_trans hn hn'
    refine (Chain.meets_substitute hD (hD.substitution hk hs) rest (hD.conditions hk hc.2)
      (hD.chain hk h.2)).bind fun m hm rest' hrest => .pure fun m' hm' => ?_
    have hbranch : (Chain.branch c js rest').Meets (D m) :=
      ⟨hD.condition (Nat.le_trans hk hm) hcopy, hrest.1⟩
    exact ⟨hD.conditions hm' hbranch,
      hD.allEverywhere (Nat.le_trans hm hm') hjs, hD.chain hm' hrest.2⟩

theorem Item.meets_substituteAll (hD : Demands.Numbered D) {k : Nat} (hs : s.Meets (D k)) :
    ∀ is : List Item, Item.AllEverywhere (Item.Meets (D k)) is →
      Counts Eq k (Item.substituteAll s is) fun n js => Item.AllEverywhere (Item.Meets (D n)) js
  | [], _ => by
    rw [Item.substituteAll]
    exact .pure fun _ _ => trivial
  | i :: is, h => by
    rw [Item.substituteAll]
    refine (Item.meets_substitute hD hs i h.1).bind fun n hn o ho => ?_
    refine (Item.meets_substituteAll hD (hD.substitution hn hs) is (hD.allEverywhere hn h.2)).bind
      fun m hm js hjs => ?_
    refine .pure fun m' hm' => ?_
    have hjs := hD.allEverywhere hm' hjs
    cases o with
    | none => exact hjs
    | some j => exact ⟨hD.everywhere (Nat.le_trans hm hm') (ho j rfl), hjs⟩

end

end Copies

end ControlFile
