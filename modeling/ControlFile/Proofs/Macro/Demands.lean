import ControlFile.Proofs.Macro.Filling

/-!
# Demands on names, words and operations

Names, the texts of strings, and the expressions that are arguments as a whole are what the words of a
copy are made of; and copies are put in the place of operands.  `Demands` asks something of each name,
text, argument and operation, and an expression or an item *meets* the demands if all that is in it
does.  Texts and arguments are looked at only where they may be passed to a macro: in the arguments of a
call whose name may be that of a macro, and in an item that is an expression, since a call may stand for
it.  The names of variables that are declared or set are looked at; those of sites, of atoms and behind
error estimates get into no word, and are not.
-/

namespace ControlFile

/-- What is asked of names, of the texts of strings, of arguments and of operations; and the names that
may be those of macros and of their parameters. -/
structure Demands where
  name : String → Prop
  text : String → Prop
  argument : Expr → Prop
  operation : Expr → Prop
  callee : String → Prop

/-- Nothing is asked but of operations. -/
def Demands.ofOperations (P : Expr → Prop) : Demands :=
  ⟨fun _ => True, fun _ => True, fun _ => True, P, fun _ => True⟩

/-- Whatever meets the demands `d` and `d'` meets the demands `d''`. -/
structure Demands.Entails (d d' d'' : Demands) : Prop where
  name : ∀ n, d.name n → d'.name n → d''.name n
  text : ∀ t, d.text t → d'.text t → d''.text t
  argument : ∀ e, d.argument e → d'.argument e → d''.argument e
  operation : ∀ e, d.operation e → d'.operation e → d''.operation e
  callee : ∀ n, d''.callee n ↔ d.callee n ∧ d'.callee n

/-! ### Expressions -/

def Literal.Meets (d : Demands) : Literal → Prop
  | .string text => d.text text
  | _ => True

theorem Literal.meets_ofNumber (d : Demands) (value : Float) : (Literal.ofNumber value).Meets d := by
  unfold ofNumber
  split
  · split <;> trivial
  · trivial

mutual

/-- The expression meets the demands; `passed` says whether it may be passed to a macro. -/
def Expr.Meets (d : Demands) (passed : Prop) : Expr → Prop
  | .literal value => passed → value.Meets d
  | .ident name => d.name name
  | .call name arguments _ => d.name name ∧ Argument.AllMeet d (passed ∨ d.callee name) arguments
  | .unary op operand => d.operation (.unary op operand) ∧ operand.Meets d passed
  | .binary op lhs rhs =>
    d.operation (.binary op lhs rhs) ∧ lhs.Meets d passed ∧ rhs.Meets d passed
  | .paren inner => inner.Meets d passed

def Argument.AllMeet (d : Demands) (passed : Prop) : List Argument → Prop
  | [] => True
  | a :: as => a.Meets d passed ∧ Argument.AllMeet d passed as

def Argument.Meets (d : Demands) (passed : Prop) : Argument → Prop
  | .hole => True
  | .parameter p => p.Meets d passed
  | .expr e => (passed → d.argument e) ∧ e.Meets d passed
  | .equation e => e.Meets d passed

def Parameter.Meets (d : Demands) (passed : Prop) : Parameter → Prop
  | ⟨_, name, value⟩ => (∀ n ∈ name, d.name n) ∧ value.Meets d passed

def Value.Meets (d : Demands) (passed : Prop) : Value → Prop
  | .absent => True
  | .literal value => passed → value.Meets d
  | .equation e => e.Meets d passed

def Equation.Meets (d : Demands) (passed : Prop) : Equation → Prop
  | ⟨_, body, _⟩ => body.Meets d passed

end

theorem Parameter.meets_iff {d : Demands} {passed : Prop} {p : Parameter} :
    p.Meets d passed ↔ (∀ n ∈ p.name, d.name n) ∧ p.value.Meets d passed := by
  cases p
  exact Iff.rfl

theorem Equation.meets_iff {d : Demands} {passed : Prop} {e : Equation} :
    e.Meets d passed ↔ e.body.Meets d passed := by
  cases e
  exact Iff.rfl

/-! ### Items -/

/-- The names of the macro and of its parameters. -/
def Signature.names (s : Signature) : List String := s.name :: s.params.filterMap (·.name)

def SiteStatement.Meets (d : Demands) (s : SiteStatement) : Prop := ∀ p ∈ s.slots, p.Meets d False

def Directive.Meets (d : Demands) : Directive → Prop
  | .define n => d.name n
  | .prm n e => d.name n ∧ e.Meets d False
  | .out e => e.Meets d False
  | _ => True

def Condition.Meets (d : Demands) : Condition → Prop
  | .expr e => e.Meets d False
  | _ => True

/-- The conditions meet the demands. -/
def Chain.Meets (d : Demands) : Chain → Prop
  | .branch condition _ rest => condition.Meets d ∧ rest.Meets d
  | _ => True

/-- What is in the item itself, and not in the items in it. -/
def ItemKind.Meets (d : Demands) : ItemKind → Prop
  | .keyword _ e => ∀ f ∈ e, f.Meets d False
  | .expr e => e.Meets d True
  | .parameter p | .declaration _ p => p.Meets d False
  | .equation e | .assignment _ e => e.Meets d False
  | .existing a => a.equation.Meets d False
  | .siteStatement s => s.Meets d
  | .directive word => word.Meets d
  | .macroDecl _ signatures _ => ∀ s ∈ signatures, ∀ n ∈ s.names, d.callee n
  | .conditional _ chain => chain.Meets d
  | _ => True

def Item.Meets (d : Demands) (i : Item) : Prop := i.kind.Meets d

/-! ### Demands that can be decided -/

section Decidable

variable (d : Demands) [DecidablePred d.name] [DecidablePred d.text] [DecidablePred d.argument]
  [DecidablePred d.operation] [DecidablePred d.callee]

instance Literal.decidableMeets : DecidablePred (Literal.Meets d)
  | .string text => inferInstanceAs (Decidable (d.text text))
  | .integer _ | .decimal _ => inferInstanceAs (Decidable True)

mutual

instance Expr.decidableMeets (passed : Prop) [Decidable passed] :
    ∀ e : Expr, Decidable (e.Meets d passed)
  | .literal value => inferInstanceAs (Decidable (passed → value.Meets d))
  | .ident name => inferInstanceAs (Decidable (d.name name))
  | .call name arguments _ =>
    have := Argument.decidableAllMeet (passed ∨ d.callee name) arguments
    inferInstanceAs (Decidable (d.name name ∧ Argument.AllMeet d (passed ∨ d.callee name) arguments))
  | .unary op operand =>
    have := operand.decidableMeets passed
    inferInstanceAs (Decidable (d.operation (.unary op operand) ∧ operand.Meets d passed))
  | .binary op lhs rhs =>
    have := lhs.decidableMeets passed
    have := rhs.decidableMeets passed
    inferInstanceAs (Decidable
      (d.operation (.binary op lhs rhs) ∧ lhs.Meets d passed ∧ rhs.Meets d passed))
  | .paren inner => inner.decidableMeets passed

instance Argument.decidableAllMeet (passed : Prop) [Decidable passed] :
    ∀ as : List Argument, Decidable (Argument.AllMeet d passed as)
  | [] => inferInstanceAs (Decidable True)
  | a :: as =>
    have := a.decidableMeets passed
    have := Argument.decidableAllMeet passed as
    inferInstanceAs (Decidable (a.Meets d passed ∧ Argument.AllMeet d passed as))

instance Argument.decidableMeets (passed : Prop) [Decidable passed] :
    ∀ a : Argument, Decidable (a.Meets d passed)
  | .hole => inferInstanceAs (Decidable True)
  | .parameter p => p.decidableMeets passed
  | .expr e =>
    have := e.decidableMeets passed
    inferInstanceAs (Decidable ((passed → d.argument e) ∧ e.Meets d passed))
  | .equation e => e.decidableMeets passed

instance Parameter.decidableMeets (passed : Prop) [Decidable passed] :
    ∀ p : Parameter, Decidable (p.Meets d passed)
  | ⟨_, name, value⟩ =>
    have := value.decidableMeets passed
    inferInstanceAs (Decidable ((∀ n ∈ name, d.name n) ∧ value.Meets d passed))

instance Value.decidableMeets (passed : Prop) [Decidable passed] :
    ∀ w : Value, Decidable (w.Meets d passed)
  | .absent => inferInstanceAs (Decidable True)
  | .literal value => inferInstanceAs (Decidable (passed → value.Meets d))
  | .equation e => e.decidableMeets passed

instance Equation.decidableMeets (passed : Prop) [Decidable passed] :
    ∀ e : Equation, Decidable (e.Meets d passed)
  | ⟨_, body, _⟩ => body.decidableMeets passed

end

instance Directive.decidableMeets : DecidablePred (Directive.Meets d)
  | .define n => inferInstanceAs (Decidable (d.name n))
  | .prm n e => inferInstanceAs (Decidable (d.name n ∧ e.Meets d False))
  | .out e => inferInstanceAs (Decidable (e.Meets d False))
  | .includeFile _ | .undef _ | .deleteMacros _ | .seed => inferInstanceAs (Decidable True)

instance Condition.decidableMeets : DecidablePred (Condition.Meets d)
  | .expr e => inferInstanceAs (Decidable (e.Meets d False))
  | .defined .. | .argument .. => inferInstanceAs (Decidable True)

instance Chain.decidableMeets : ∀ c : Chain, Decidable (c.Meets d)
  | .branch condition _ rest =>
    have := rest.decidableMeets
    inferInstanceAs (Decidable (condition.Meets d ∧ rest.Meets d))
  | .done | .otherwise _ => inferInstanceAs (Decidable True)

instance ItemKind.decidableMeets : DecidablePred (ItemKind.Meets d)
  | .keyword _ e => inferInstanceAs (Decidable (∀ f ∈ e, f.Meets d False))
  | .expr e => inferInstanceAs (Decidable (e.Meets d True))
  | .parameter p | .declaration _ p => inferInstanceAs (Decidable (p.Meets d False))
  | .equation e | .assignment _ e => inferInstanceAs (Decidable (e.Meets d False))
  | .existing a => inferInstanceAs (Decidable (a.equation.Meets d False))
  | .siteStatement s => inferInstanceAs (Decidable (∀ p ∈ s.slots, p.Meets d False))
  | .directive word => inferInstanceAs (Decidable (word.Meets d))
  | .macroDecl _ signatures _ =>
    inferInstanceAs (Decidable (∀ s ∈ signatures, ∀ n ∈ s.names, d.callee n))
  | .conditional _ chain => inferInstanceAs (Decidable (chain.Meets d))
  | .site .. | .bodyOp .. | .block _ => inferInstanceAs (Decidable True)

instance : DecidablePred (Item.Meets d) := fun i => ItemKind.decidableMeets d i.kind

end Decidable

/-! ### Demands that entail others -/

section Entails

variable {d d' d'' : Demands} {p p' p'' : Prop}

theorem Literal.Meets.entails (h : d.Entails d' d'') {value : Literal} (hd : value.Meets d)
    (hd' : value.Meets d') : value.Meets d'' := by
  cases value with
  | string text => exact h.text text hd hd'
  | _ => trivial

/-- What is passed under the demands `d''` is so under `d` and under `d'`. -/
theorem Demands.Entails.passed (h : d.Entails d' d'') (hp : p'' → p ∧ p') (n : String) :
    p'' ∨ d''.callee n → (p ∨ d.callee n) ∧ (p' ∨ d'.callee n) := by
  rintro (hpassed | hcallee)
  · exact ⟨.inl (hp hpassed).1, .inl (hp hpassed).2⟩
  · obtain ⟨hd, hd'⟩ := (h.callee n).1 hcallee
    exact ⟨.inr hd, .inr hd'⟩

mutual

theorem Expr.meets_entails (h : d.Entails d' d'') {p p' p'' : Prop} (hp : p'' → p ∧ p') :
    ∀ e : Expr, e.Meets d p → e.Meets d' p' → e.Meets d'' p''
  | .literal _, hd, hd' => fun hpassed =>
    Literal.Meets.entails h (hd (hp hpassed).1) (hd' (hp hpassed).2)
  | .ident n, hd, hd' => h.name n hd hd'
  | .call n as _, hd, hd' =>
    ⟨h.name n hd.1 hd'.1, Argument.allMeet_entails h (h.passed hp n) as hd.2 hd'.2⟩
  | .unary _ operand, hd, hd' =>
    ⟨h.operation _ hd.1 hd'.1, Expr.meets_entails h hp operand hd.2 hd'.2⟩
  | .binary _ lhs rhs, hd, hd' =>
    ⟨h.operation _ hd.1 hd'.1, Expr.meets_entails h hp lhs hd.2.1 hd'.2.1,
      Expr.meets_entails h hp rhs hd.2.2 hd'.2.2⟩
  | .paren inner, hd, hd' => Expr.meets_entails h hp inner hd hd'

theorem Argument.allMeet_entails (h : d.Entails d' d'') {p p' p'' : Prop} (hp : p'' → p ∧ p') :
    ∀ as : List Argument,
      Argument.AllMeet d p as → Argument.AllMeet d' p' as → Argument.AllMeet d'' p'' as
  | [], _, _ => trivial
  | a :: as, hd, hd' =>
    ⟨Argument.meets_entails h hp a hd.1 hd'.1, Argument.allMeet_entails h hp as hd.2 hd'.2⟩

theorem Argument.meets_entails (h : d.Entails d' d'') {p p' p'' : Prop} (hp : p'' → p ∧ p') :
    ∀ a : Argument, a.Meets d p → a.Meets d' p' → a.Meets d'' p''
  | .hole, _, _ => trivial
  | .parameter q, hd, hd' => Parameter.meets_entails h hp q hd hd'
  | .expr e, hd, hd' =>
    ⟨fun hpassed => h.argument e (hd.1 (hp hpassed).1) (hd'.1 (hp hpassed).2),
      Expr.meets_entails h hp e hd.2 hd'.2⟩
  | .equation e, hd, hd' => Equation.meets_entails h hp e hd hd'

theorem Parameter.meets_entails (h : d.Entails d' d'') {p p' p'' : Prop} (hp : p'' → p ∧ p') :
    ∀ q : Parameter, q.Meets d p → q.Meets d' p' → q.Meets d'' p''
  | ⟨_, _, w⟩, hd, hd' =>
    ⟨fun n hn => h.name n (hd.1 n hn) (hd'.1 n hn), Value.meets_entails h hp w hd.2 hd'.2⟩

theorem Value.meets_entails (h : d.Entails d' d'') {p p' p'' : Prop} (hp : p'' → p ∧ p') :
    ∀ w : Value, w.Meets d p → w.Meets d' p' → w.Meets d'' p''
  | .absent, _, _ => trivial
  | .literal _, hd, hd' => fun hpassed =>
    Literal.Meets.entails h (hd (hp hpassed).1) (hd' (hp hpassed).2)
  | .equation e, hd, hd' => Equation.meets_entails h hp e hd hd'

theorem Equation.meets_entails (h : d.Entails d' d'') {p p' p'' : Prop} (hp : p'' → p ∧ p') :
    ∀ e : Equation, e.Meets d p → e.Meets d' p' → e.Meets d'' p''
  | ⟨_, body, _⟩, hd, hd' => Expr.meets_entails h hp body hd hd'

end

theorem Directive.meets_entails (h : d.Entails d' d'') (w : Directive) (hd : w.Meets d)
    (hd' : w.Meets d') : w.Meets d'' := by
  cases w with
  | define n => exact h.name n hd hd'
  | prm n e => exact ⟨h.name n hd.1 hd'.1, e.meets_entails h False.elim hd.2 hd'.2⟩
  | out e => exact e.meets_entails h False.elim hd hd'
  | _ => trivial

theorem Chain.meets_entails (h : d.Entails d' d'') :
    ∀ c : Chain, c.Meets d → c.Meets d' → c.Meets d''
  | .done, _, _ | .otherwise _, _, _ => trivial
  | .branch condition _ rest, hd, hd' => by
    refine ⟨?_, Chain.meets_entails h rest hd.2 hd'.2⟩
    cases condition with
    | expr e => exact e.meets_entails h False.elim hd.1 hd'.1
    | _ => trivial

theorem ItemKind.meets_entails (h : d.Entails d' d'') (k : ItemKind) (hd : k.Meets d)
    (hd' : k.Meets d') : k.Meets d'' := by
  cases k with
  | keyword word e => exact fun f hf => f.meets_entails h False.elim (hd f hf) (hd' f hf)
  | expr e => exact e.meets_entails h (fun _ => ⟨trivial, trivial⟩) hd hd'
  | parameter p => exact p.meets_entails h False.elim hd hd'
  | declaration scope p => exact p.meets_entails h False.elim hd hd'
  | equation e => exact e.meets_entails h False.elim hd hd'
  | assignment n e => exact e.meets_entails h False.elim hd hd'
  | existing a => exact a.equation.meets_entails h False.elim hd hd'
  | siteStatement s => exact fun p hp => p.meets_entails h False.elim (hd p hp) (hd' p hp)
  | directive w => exact w.meets_entails h hd hd'
  | macroDecl isList signatures body =>
    exact fun s hs n hn => (h.callee n).2 ⟨hd s hs n hn, hd' s hs n hn⟩
  | conditional family chain => exact chain.meets_entails h hd hd'
  | _ => trivial

end Entails

theorem Item.Everywhere.meets_entails {d d' d'' : Demands} {i : Item}
    (hd : i.Everywhere (Item.Meets d)) (hd' : i.Everywhere (Item.Meets d')) (h : d.Entails d' d'') :
    i.Everywhere (Item.Meets d'') :=
  Item.everywhere_of_all (P := fun b : Bool => Item.Meets (if b then d else d'))
    (fun j hj => j.kind.meets_entails h (hj true) (hj false)) i (Bool.forall_bool.2 ⟨hd', hd⟩)

/-! ### Less is passed -/

section Mono

variable {d : Demands} {p q : Prop}

theorem Demands.Entails.refl (d : Demands) : d.Entails d d :=
  ⟨fun _ h _ => h, fun _ h _ => h, fun _ h _ => h, fun _ h _ => h, fun _ => (and_self_iff).symm⟩

theorem Expr.Meets.mono (h : q → p) {e : Expr} (he : e.Meets d p) : e.Meets d q :=
  e.meets_entails (.refl d) (fun hq => ⟨h hq, h hq⟩) he he

theorem Argument.AllMeet.mono (h : q → p) {as : List Argument} (has : Argument.AllMeet d p as) :
    Argument.AllMeet d q as :=
  Argument.allMeet_entails (.refl d) (fun hq => ⟨h hq, h hq⟩) as has has

theorem Argument.Meets.mono (h : q → p) {a : Argument} (ha : a.Meets d p) : a.Meets d q :=
  a.meets_entails (.refl d) (fun hq => ⟨h hq, h hq⟩) ha ha

theorem Parameter.Meets.mono (h : q → p) {x : Parameter} (hx : x.Meets d p) : x.Meets d q :=
  x.meets_entails (.refl d) (fun hq => ⟨h hq, h hq⟩) hx hx

theorem Value.Meets.mono (h : q → p) {w : Value} (hw : w.Meets d p) : w.Meets d q :=
  w.meets_entails (.refl d) (fun hq => ⟨h hq, h hq⟩) hw hw

theorem Equation.Meets.mono (h : q → p) {e : Equation} (he : e.Meets d p) : e.Meets d q :=
  e.meets_entails (.refl d) (fun hq => ⟨h hq, h hq⟩) he he

end Mono

/-! ### What takes the place of a name or a call -/

namespace Expr

/-- Whether the expression is written as factors next to each other, the first of which is a word:
blanks apart, all that keeps its words from being one. -/
def startsWord : Expr → Bool
  | .ident _ | .call .. | .literal (.string _) => true
  | .binary .juxtaposed lhs _ => lhs.startsWord
  | _ => false

/-- Whether there are several factors next to each other, the first of which is a word. -/
def isWordRow : Expr → Bool
  | .binary .juxtaposed lhs _ => lhs.startsWord
  | _ => false

/-- How tightly the expression holds together, if numbers with a minus are numbers like all others. -/
def grip : Expr → Nat
  | .unary .. => 4
  | .binary op .. => op.level
  | _ => 6

/-- What may follow a power sign: an operand with at most one sign. -/
def isLooseExponent : Expr → Bool
  | .unary _ operand => operand.grip == 6
  | e => e.grip == 6

theorem isWordRow_of_not_compound {e : Expr} (h : e.isCompound = false) : e.isWordRow = false := by
  cases e with
  | binary op lhs rhs => cases h
  | _ => rfl

theorem grip_of_not_compound {e : Expr} (h : e.isCompound = false) : e.grip = 6 := by
  cases e <;> first | rfl | cases h

theorem isLooseExponent_of_not_compound {e : Expr} (h : e.isCompound = false) :
    e.isLooseExponent = true := by
  cases e <;> first | rfl | cases h

theorem grip_le (e : Expr) : e.grip ≤ 6 := by
  unfold grip
  split
  · decide
  · rename_i op lhs rhs
    cases op <;> decide
  · decide

/-- In the place of `e` there is `e'`, in which names and calls are replaced by what is no operation.
Then `e'` holds together as tightly; and if `e` does not start with a word, or is no row of words, then
neither does, or is, `e'`. -/
structure Leads (e e' : Expr) : Prop where
  startsWord : e.startsWord = false → e'.startsWord = false
  isWordRow : e.isWordRow = false → e'.isWordRow = false
  grip : e.grip ≤ e'.grip
  exponent : e.isLooseExponent = true → e'.isLooseExponent = true

namespace Leads

theorem refl (e : Expr) : e.Leads e := ⟨id, id, Nat.le_refl _, id⟩

theorem of_word {e e' : Expr} (h : e.startsWord = true) (h' : e'.isCompound = false) : e.Leads e' where
  startsWord hfalse := absurd (h.symm.trans hfalse) (by simp)
  isWordRow _ := isWordRow_of_not_compound h'
  grip := grip_of_not_compound h' ▸ e.grip_le
  exponent _ := isLooseExponent_of_not_compound h'

theorem unary {e e' : Expr} (h : e.Leads e') (op : UnaryOp) : (Expr.unary op e).Leads (.unary op e') := by
  refine ⟨id, id, Nat.le_refl _, fun hexponent => ?_⟩
  have hgrip := h.grip
  have hle := e'.grip_le
  simp only [isLooseExponent, beq_iff_eq] at hexponent ⊢
  omega

theorem binary {l l' : Expr} (h : l.Leads l') (op : BinaryOp) (r r' : Expr) :
    (Expr.binary op l r).Leads (.binary op l' r') := by
  cases op with
  | juxtaposed => exact ⟨h.startsWord, h.startsWord, Nat.le_refl _, id⟩
  | _ => exact ⟨id, id, Nat.le_refl _, id⟩

theorem paren (e e' : Expr) : (Expr.paren e).Leads (.paren e') := ⟨id, id, Nat.le_refl _, id⟩

end Leads

theorem parenthesized_meets {d : Demands} {passed : Prop} {e : Expr} (h : e.Meets d passed) :
    e.parenthesized.Meets d passed := by
  unfold parenthesized
  split <;> exact h

end Expr

end ControlFile
