import ControlFile.Proofs.Item.Complete

/-!
# How deep items are nested

A level is an expression that stands for itself, in an equation, in a condition, in parentheses or as
an argument; and it is a conditional, a block or the body of a macro.  Signs, operations, calls and
sites are no levels of their own.  `Item.depth` is the greatest number of levels that are in one
another.

What is read with `L` levels left is at most `L` levels deep (`Parser.depth_expression`,
`ItemParser.depth_item`).
-/

namespace ControlFile

/-! ### Levels -/

mutual

/-- The levels in an expression, its own one left out. -/
def Expr.innerDepth : Expr → Nat
  | .literal _ | .ident _ => 0
  | .call _ arguments _ => Argument.maxDepth arguments
  | .unary _ operand => operand.innerDepth
  | .binary _ lhs rhs => max lhs.innerDepth rhs.innerDepth
  | .paren inner => inner.innerDepth + 1

def Argument.maxDepth : List Argument → Nat
  | [] => 0
  | a :: as => max a.depth (Argument.maxDepth as)

def Argument.depth : Argument → Nat
  | .hole => 0
  | .parameter param => param.depth
  | .expr expr => expr.innerDepth + 1
  | .equation equation => equation.depth

def Parameter.depth : Parameter → Nat
  | ⟨_, _, value⟩ => value.depth

def Value.depth : Value → Nat
  | .absent | .literal _ => 0
  | .equation equation => equation.depth

def Equation.depth : Equation → Nat
  | ⟨_, body, _⟩ => body.innerDepth + 1

end

/-- The levels of an expression. -/
def Expr.depth (e : Expr) : Nat := e.innerDepth + 1

def SiteStatement.depth (s : SiteStatement) : Nat := (s.slots.map Parameter.depth).foldr max 0

def Directive.depth : Directive → Nat
  | .prm _ equation => equation.depth
  | .out e => e.depth
  | _ => 0

def Condition.depth : Condition → Nat
  | .expr e => e.depth
  | _ => 0

mutual

/-- The levels of an item. -/
def Item.depth : Item → Nat
  | ⟨kind, _⟩ => kind.depth

def ItemKind.depth : ItemKind → Nat
  | .keyword _ none | .bodyOp .. => 0
  | .keyword _ (some equation) | .equation equation | .assignment _ equation => equation.depth
  | .expr expr => expr.depth
  | .parameter param | .declaration _ param => param.depth
  | .existing assignment => assignment.equation.depth
  | .siteStatement statement => statement.depth
  | .directive directive => directive.depth
  | .site _ members => Item.maxDepth members
  | .macroDecl _ _ body => Item.maxDepth body + 1
  | .conditional _ chain => chain.depth + 1
  | .block items => Item.maxDepth items + 1

def Chain.depth : Chain → Nat
  | .done => 0
  | .otherwise items => Item.maxDepth items
  | .branch condition items rest => max condition.depth (max (Item.maxDepth items) rest.depth)

def Item.maxDepth : List Item → Nat
  | [] => 0
  | i :: is => max i.depth (Item.maxDepth is)

end

section Bounds

variable {L : Nat}

theorem Argument.maxDepth_le {as : List Argument} (h : ∀ a ∈ as, a.depth ≤ L) : maxDepth as ≤ L := by
  induction as with
  | nil => exact Nat.zero_le L
  | cons a as ih =>
    obtain ⟨ha, has⟩ := List.forall_mem_cons.1 h
    exact Nat.max_le.2 ⟨ha, ih has⟩

theorem Item.maxDepth_le {is : List Item} (h : ∀ i ∈ is, i.depth ≤ L) : maxDepth is ≤ L := by
  induction is with
  | nil => exact Nat.zero_le L
  | cons i is ih =>
    obtain ⟨hi, his⟩ := List.forall_mem_cons.1 h
    exact Nat.max_le.2 ⟨hi, ih his⟩

theorem SiteStatement.depth_le {s : SiteStatement} (h : ∀ p ∈ s.slots, p.depth ≤ L) :
    s.depth ≤ L := by
  have hfold : ∀ ps : List Parameter, (∀ p ∈ ps, p.depth ≤ L) →
      (ps.map Parameter.depth).foldr max 0 ≤ L := by
    intro ps
    induction ps with
    | nil => exact fun _ => Nat.zero_le L
    | cons p ps ih =>
      intro h
      obtain ⟨hp, hps⟩ := List.forall_mem_cons.1 h
      exact Nat.max_le.2 ⟨hp, ih hps⟩
  exact hfold s.slots h

end Bounds

/-! ### Expressions -/

namespace Parser

variable {v : Vocabulary} {L : Nat}

/-- A value that is no equation has no levels. -/
theorem depth_literalValue : Returns literalValue fun value => value.depth ≤ L := by
  refine .bind fun value => ?_
  cases value with
  | none => exact .pure (Nat.zero_le L)
  | some value => exact .pure (Nat.zero_le L)

theorem depth_markedParameter : Returns (markedParameter v) fun p => p.depth ≤ L := by
  refine .bind fun _ => ?_
  refine .bind fun _ => ?_
  exact depth_literalValue.bind_of fun _ h => .pure h

section Inner

variable {inner : Parser Expr} (hinner : Returns inner fun e => e.depth ≤ L)
include hinner

theorem depth_equation (op : AssignOp) : Returns (equation inner op) fun q => q.depth ≤ L := by
  refine .bind fun _ => ?_
  refine hinner.bind_of fun _ hbody => ?_
  refine .bind fun _ => ?_
  refine .bind fun _ => ?_
  refine .ite (fun _ => ?_) fun _ => ?_
  · exact .bind fun _ => .pure hbody
  · exact .pure hbody

theorem depth_argument : Returns (argument v inner) fun a => a.depth ≤ L := by
  have hparameter : Returns (do return .parameter (← markedParameter v) : Parser Argument)
      fun a => a.depth ≤ L :=
    depth_markedParameter.bind_of fun p hp => .pure hp
  refine .bind fun c => ?_
  split
  · exact .pure (Nat.zero_le L)
  · exact .pure (Nat.zero_le L)
  · exact hparameter
  · exact hparameter
  · exact (depth_equation hinner _).bind_of fun q hq => .pure hq
  · exact .ite (fun _ => hinner.bind_of fun e he => .pure he) fun _ => returns_fail _
  · exact returns_fail _

theorem depth_arguments (limit : Nat) :
    Returns (arguments v inner limit) fun as => ∀ a ∈ as, a.depth ≤ L := by
  induction limit with
  | zero => exact .pure (List.forall_mem_nil _)
  | succ limit ih =>
    refine (depth_argument hinner).bind_of fun a ha => ?_
    refine .bind fun _ => ?_
    refine .ite (fun _ => ?_) fun _ => ?_
    · exact ih.bind_of fun as has => .pure (List.forall_mem_cons.2 ⟨ha, has⟩)
    · exact .bind fun _ => .pure (List.forall_mem_singleton.2 ha)

/-- A call has the levels of its arguments. -/
theorem depth_call (name : String) (start : Nat) :
    Returns (call v inner name start) fun e => e.innerDepth ≤ L := by
  have hcall (as : List Argument) (has : ∀ a ∈ as, a.depth ≤ L) :
      Returns (do return .call name as ⟨start, (← get).lastEnd⟩ : Parser Expr)
        fun e => e.innerDepth ≤ L :=
    .bind fun _ => .pure (Argument.maxDepth_le has)
  refine .bind fun _ => ?_
  refine .bind fun _ => ?_
  refine .ite (fun _ => ?_) fun _ => ?_
  · exact Returns.bind_of (.pure (List.forall_mem_nil fun a : Argument => a.depth ≤ L)) hcall
  · exact .bind fun _ => (depth_arguments hinner _).bind_of hcall

/-- An expression in parentheses is one level. -/
theorem depth_primary : Returns (primary v inner) fun e => e.innerDepth ≤ L := by
  have hliteral : Returns (do return .literal (← literal false) : Parser Expr)
      fun e => e.innerDepth ≤ L := .bind fun _ => .pure (Nat.zero_le L)
  refine .bind fun c => ?_
  split
  · exact returns_failExpected _
  · split
    · exact hliteral
    · exact hliteral
    · exact hliteral
    · exact .bind fun _ => .ite (fun _ => depth_call hinner _ _) fun _ => .pure (Nat.zero_le L)
    · exact .bind fun _ => .pure (Nat.zero_le L)
    · refine .bind fun _ => ?_
      refine hinner.bind_of fun e he => ?_
      exact .bind fun _ => .pure he
    · exact returns_failExpected _

theorem depth_exponent : Returns (exponent v inner) fun e => e.innerDepth ≤ L := by
  refine .bind fun c => .ite (fun _ => ?_) fun _ => ?_
  · exact .bind fun _ => .bind fun _ => .pure (Nat.zero_le L)
  · split
    · exact .bind fun _ => (depth_primary hinner).bind_of fun e he => .pure he
    · exact depth_primary hinner

theorem depth_exponents (limit : Nat) {base : Expr} (hbase : base.innerDepth ≤ L) :
    Returns (exponents v inner limit base) fun e => e.innerDepth ≤ L := by
  induction limit generalizing base with
  | zero => exact .pure hbase
  | succ limit ih =>
    refine .bind fun _ => ?_
    refine .ite (fun _ => ?_) fun _ => ?_
    · exact (depth_exponent hinner).bind_of fun e he => ih (Nat.max_le.2 ⟨hbase, he⟩)
    · exact .pure hbase

theorem depth_power : Returns (power v inner) fun e => e.innerDepth ≤ L :=
  (depth_primary hinner).bind_of fun _ hbase => .bind fun _ => depth_exponents hinner _ hbase

theorem depth_signed : Returns (signed v inner) fun e => e.innerDepth ≤ L := by
  refine .bind fun c => .ite (fun _ => ?_) fun _ => ?_
  · exact .bind fun _ => .bind fun _ => .pure (Nat.zero_le L)
  · split
    · exact .bind fun _ => (depth_power hinner).bind_of fun e he => .pure he
    · exact depth_power hinner

end Inner

section Operand

variable {operand : Parser Expr} {juxtapose : Bool} {level : Nat}
variable (hoperand : Returns operand fun e => e.innerDepth ≤ L)
include hoperand

theorem depth_operations (limit : Nat) {lhs : Expr} (hlhs : lhs.innerDepth ≤ L) :
    Returns (operations juxtapose level operand limit lhs) fun e => e.innerDepth ≤ L := by
  induction limit generalizing lhs with
  | zero => exact .pure hlhs
  | succ limit ih =>
    refine .bind fun c => ?_
    split
    · refine .ite (fun _ => ?_) fun _ => ?_
      · refine .bind fun _ => ?_
        refine hoperand.bind_of fun rhs hrhs => ?_
        exact ih (Nat.max_le.2 ⟨hlhs, hrhs⟩)
      · exact .pure hlhs
    · exact .pure hlhs

theorem depth_grouped : Returns (grouped juxtapose level operand) fun e => e.innerDepth ≤ L :=
  hoperand.bind_of fun _ hlhs => .bind fun _ => depth_operations hoperand _ hlhs

end Operand

/-- **An expression has no more levels than are left.** -/
theorem depth_expression (v : Vocabulary) (L : Nat) (juxtapose : Bool) :
    Returns (expression v L juxtapose) fun e => e.depth ≤ L := by
  induction L generalizing juxtapose with
  | zero => exact returns_fail _
  | succ L ih =>
    have hcomparison : Returns (comparison v (expression v L true) juxtapose)
        fun e => e.innerDepth ≤ L :=
      depth_grouped (depth_grouped (depth_grouped (depth_signed (ih true))))
    exact hcomparison.mono fun e he => Nat.succ_le_succ he

/-! ### Statements -/

section Statements

variable {expr : Parser Expr} (hexpr : Returns expr fun e => e.depth ≤ L) (scope : Scope)
include hexpr

theorem depth_declaration (kind : VariableScope) :
    Returns (declaration expr scope kind) fun k => k.depth ≤ L := by
  refine .bind fun _ => ?_
  refine .bind fun mark => ?_
  refine .bind fun n => ?_
  refine .bind fun c => ?_
  have hdeclare (value : Value) (hvalue : value.depth ≤ L) : Returns
      (if (value.isPresent || scope.inMacro) = true then
          pure (ItemKind.declaration kind ⟨mark, some n, value⟩)
        else failExpected (.valueOf n) : Parser ItemKind) fun k => k.depth ≤ L :=
    .ite (fun _ => .pure hvalue) fun _ => returns_failExpected _
  refine .ite (fun _ => (depth_equation hexpr _).bind_of fun q hq => ?_) fun _ => ?_
  · exact Returns.bind_of (P := fun value => value.depth ≤ L) (.pure hq) hdeclare
  · exact depth_literalValue.bind_of hdeclare

theorem depth_existing : Returns (existing expr) fun k => k.depth ≤ L := by
  refine .bind fun _ => ?_
  refine .bind fun mark => ?_
  refine .bind fun n => ?_
  refine .bind fun c => ?_
  split
  · exact (depth_equation hexpr _).bind_of fun q hq => .pure hq
  · exact returns_failExpected _

theorem depth_valueSlot (v : Vocabulary) (fixed : Bool) :
    Returns (valueSlot v expr scope fixed) fun p => p.depth ≤ L := by
  refine .bind fun c => .ite (fun _ => ?_) fun _ => ?_
  · exact (depth_equation hexpr _).bind_of fun q hq => .pure hq
  · refine .bind fun mark => .ite (fun _ => returns_failAt _ _) fun _ => ?_
    refine .bind fun n => ?_
    refine (depth_literalValue (L := L)).bind_of fun value hvalue => ?_
    exact .ite (fun _ => .pure hvalue) fun _ => returns_failExpected _

theorem depth_siteStatement (v : Vocabulary) (word : SiteWord) :
    Returns (siteStatement v expr scope word) fun k => k.depth ≤ L := by
  have hslot (fixed : Bool) := depth_valueSlot hexpr scope v fixed
  have hstatement {s : SiteStatement} (hs : ∀ p ∈ s.slots, p.depth ≤ L) :
      (ItemKind.siteStatement s).depth ≤ L := SiteStatement.depth_le hs
  refine .bind fun c => .bind fun _ => ?_
  cases word with
  | axis a =>
    exact (hslot false).bind_of fun p hp => .pure (hstatement (List.forall_mem_singleton.2 hp))
  | occ =>
    refine (returns_occupancy (hslot false) _).bind_of fun o ho => .pure (hstatement ?_)
    exact List.forall_mem_cons.2 ⟨ho.1, List.forall_mem_map.2 ho.2⟩
  | scalar s =>
    exact (hslot s.isFixed).bind_of fun p hp => .pure (hstatement (List.forall_mem_singleton.2 hp))
  | adps => exact (returns_adps (hslot false) _).bind_of fun ps hps => .pure (hstatement hps)
  | occupancy w => exact returns_failAt _ _
  | adp w => exact returns_failAt _ _

end Statements

theorem depth_wordItem (v : Vocabulary) (L : Nat) (scope : Scope) (word : String) :
    Returns (wordItem v L scope word) fun k => k.depth ≤ L := by
  have hexpr : Returns (do return .expr (← expression v L false) : Parser ItemKind)
      fun k => k.depth ≤ L := (depth_expression v L false).bind_of fun e he => .pure he
  have hequation (op : AssignOp) := depth_equation (depth_expression v L true) op
  refine .bind fun c => .ite (fun _ => hexpr) fun _ => ?_
  split
  · exact depth_siteStatement (depth_expression v L true) scope v _
  · refine .ite (fun _ => .bind fun _ => .bind fun c => .ite (fun _ => ?_) fun _ => ?_) fun _ => ?_
    · exact (hequation _).bind_of fun q hq => .pure hq
    · exact .pure (Nat.zero_le L)
    · split
      · exact .bind fun _ => (hequation _).bind_of fun q hq => .pure hq
      · exact hexpr

theorem depth_exprCondition {expr : Parser Expr} (hexpr : Returns expr fun e => e.depth ≤ L) :
    Returns (exprCondition expr) fun c => c.depth ≤ L := by
  refine .bind fun _ => ?_
  refine hexpr.bind_of fun _ he => ?_
  exact .bind fun _ => .pure he

theorem depth_openingCondition {expr : Parser Expr} (hexpr : Returns expr fun e => e.depth ≤ L)
    (word : DirectiveWord) : Returns (openingCondition expr word) fun c => c.depth ≤ L := by
  have hcondition := depth_exprCondition hexpr
  refine .bind fun _ => ?_
  cases word with
  | ifdef => exact .bind fun _ => .bind fun _ => .pure (Nat.zero_le L)
  | ifndef => exact .bind fun _ => .pure (Nat.zero_le L)
  | ifarg => exact .bind fun _ => .bind fun _ => .pure (Nat.zero_le L)
  | _ => exact hcondition

theorem depth_plainDirective? (v : Vocabulary) (L : Nat) (word : DirectiveWord) :
    ∀ p ∈ plainDirective? v L word, Returns p fun d => d.depth ≤ L := by
  cases word with
  | includeFile =>
    rintro _ ⟨⟩
    exact .bind fun _ => .bind fun _ => .pure (Nat.zero_le L)
  | deleteMacros =>
    rintro _ ⟨⟩
    refine .bind fun _ => ?_
    refine .bind fun _ => ?_
    refine .bind fun _ => ?_
    refine .bind fun _ => ?_
    exact .bind fun _ => .pure (Nat.zero_le L)
  | define =>
    rintro _ ⟨⟩
    exact .bind fun _ => .bind fun _ => .pure (Nat.zero_le L)
  | undef =>
    rintro _ ⟨⟩
    exact .bind fun _ => .bind fun _ => .pure (Nat.zero_le L)
  | seed =>
    rintro _ ⟨⟩
    exact .bind fun _ => .pure (Nat.zero_le L)
  | prm =>
    rintro _ ⟨⟩
    refine .bind fun _ => ?_
    refine .bind fun n => ?_
    refine .bind fun c => ?_
    refine .ite (fun _ => ?_) fun _ => ?_
    · exact (depth_equation (depth_expression v L true) _).bind_of fun q hq => .pure hq
    · exact returns_failExpected _
  | out =>
    rintro _ ⟨⟩
    exact .bind fun _ => (depth_expression v L false).bind_of fun e he => .pure he
  | _ => rintro _ ⟨⟩

end Parser

/-! ### Items -/

namespace ItemParser

variable {L : Nat}

theorem depth_located {kind : ItemParser (Option ItemKind)}
    (h : Returns kind fun o => ∀ k ∈ o, k.depth ≤ L) :
    Returns (located kind) fun o => ∀ i ∈ o, i.depth ≤ L := by
  refine .bind fun c => h.bind_of fun o ho => ?_
  cases o with
  | none => exact .pure (by rintro _ ⟨⟩)
  | some k =>
    refine .bind fun c' => .pure ?_
    rintro _ ⟨⟩
    exact ho k rfl

theorem depth_site {member : ItemParser (Option Item)}
    (h : Returns member fun o => ∀ i ∈ o, i.depth ≤ L) :
    Returns (site member) fun k => k.depth ≤ L := by
  refine .bind fun c => ?_
  refine .bind fun _ => ?_
  refine .bind fun n => ?_
  cases n with
  | none => exact .throw _
  | some n =>
    refine .bind fun c => ?_
    exact (returns_collected (collected_members h _)).bind_of fun is his => .pure (Item.maxDepth_le his)

section Bodies

variable {body : StateM Reading (List Item)} (hbody : Collected body fun is => ∀ i ∈ is, i.depth ≤ L)
include hbody

theorem depth_body : Returns (liftM body : ItemParser (List Item)) fun is => Item.maxDepth is ≤ L :=
  (returns_collected hbody).mono fun _ => Item.maxDepth_le

section Branches

variable {expr : Parser Expr} (hexpr : Returns expr fun e => e.depth ≤ L)
include hexpr

theorem depth_laterBranches (opening : Opening) (limit : Nat) :
    Returns (laterBranches opening expr body limit) fun chain => chain.depth ≤ L := by
  have hitems := depth_body hbody
  have hclose : Returns (do closeChain opening; return .done : ItemParser Chain)
      fun chain => chain.depth ≤ L := .bind fun _ => .pure (Nat.zero_le L)
  induction limit with
  | zero => exact .pure (Nat.zero_le L)
  | succ limit ih =>
    refine .bind fun c => ?_
    split
    · refine .ite (fun _ => .bind fun _ => ?_) fun _ => hclose
      refine (returns_lift (Parser.depth_exprCondition hexpr)).bind_of fun condition hcondition => ?_
      refine hitems.bind_of fun is his => ?_
      refine ih.bind_of fun rest hrest => ?_
      exact .pure (Nat.max_le.2 ⟨hcondition, Nat.max_le.2 ⟨his, hrest⟩⟩)
    · refine .ite (fun _ => .bind fun _ => ?_) fun _ => hclose
      exact hitems.bind_of fun is his => .bind fun _ => .pure his
    · exact hclose

/-- A conditional is one level. -/
theorem depth_conditional (family : Family) (word : DirectiveWord) :
    Returns (conditional family word expr body) fun k => k.depth ≤ L + 1 := by
  refine .bind fun c => ?_
  have hopening := returns_lift (Parser.depth_openingCondition hexpr word)
  refine hopening.bind_of fun condition hcondition => ?_
  refine (depth_body hbody).bind_of fun is his => ?_
  refine .bind fun c' => ?_
  exact (depth_laterBranches hbody hexpr _ _).bind_of fun rest hrest =>
    .pure (Nat.succ_le_succ (Nat.max_le.2 ⟨hcondition, Nat.max_le.2 ⟨his, hrest⟩⟩))

end Branches

/-- A block is one level. -/
theorem depth_block : Returns (block body) fun k => k.depth ≤ L + 1 := by
  refine .bind fun _ => ?_
  refine .bind fun _ => ?_
  refine (depth_body hbody).bind_of fun _ his => ?_
  refine .bind fun _ => ?_
  exact .ite (fun _ => .pure (Nat.succ_le_succ his)) fun _ => .throw _

/-- The body of a macro is one level. -/
theorem depth_macroDecl (isList : Bool) :
    Returns (macroDecl isList body) fun k => k.depth ≤ L + 1 := by
  have hrest (signatures : List Signature) : Returns (do
      let opening := (← cursor).here
      Parser.expect (.mark .openBrace) .bodyStart
      let items ← body
      if !(← takeIf (.mark .closeBrace)) then report ⟨.unclosedMacro, opening⟩
      return .macroDecl isList signatures items : ItemParser ItemKind)
      fun k => k.depth ≤ L + 1 := by
    refine .bind fun c => .bind fun _ => ?_
    refine (depth_body hbody).bind_of fun is his => ?_
    have hdepth : (ItemKind.macroDecl isList signatures is).depth ≤ L + 1 := Nat.succ_le_succ his
    refine .bind fun closed => ?_
    refine .ite (fun _ => ?_) fun _ => ?_
    · exact .bind fun _ => .pure hdepth
    · exact .pure hdepth
  refine .bind fun _ => ?_
  split
  · exact .bind fun c => .bind hrest
  · exact .bind fun s => .bind hrest

end Bodies

/-! ### Items of one level -/

theorem depth_some {p : ItemParser ItemKind} (h : Returns p fun k => k.depth ≤ L) :
    Returns (do return some (← p)) fun o => ∀ k ∈ o, k.depth ≤ L := by
  refine h.bind_of fun k hk => .pure ?_
  rintro _ ⟨⟩
  exact hk

/-- A statement is an item of as many levels. -/
theorem depth_statement {α : Type} {p : Parser α} (kind : α → ItemKind)
    (h : Returns p fun a => (kind a).depth ≤ L) :
    Returns (do return some (kind (← p)) : ItemParser (Option ItemKind))
      fun o => ∀ k ∈ o, k.depth ≤ L := by
  refine (returns_lift h).bind_of fun a ha => .pure ?_
  rintro _ ⟨⟩
  exact ha

theorem depth_none {p : ItemParser PUnit} :
    Returns (do p; return none : ItemParser (Option ItemKind)) fun o => ∀ k ∈ o, k.depth ≤ L :=
  .bind fun _ => .pure (by rintro _ ⟨⟩)

theorem depth_unexpected (scope : Scope) :
    Returns (unexpected scope) fun o => ∀ k ∈ o, k.depth ≤ L :=
  .bind fun _ => .bind fun _ => depth_none

section Level

variable (v : Vocabulary) {deeper : Deeper} (scope : Scope)
variable (hdeeper : ∀ next ∈ deeper, ∃ K, L = K + 1 ∧ ∀ scope : Scope,
  Returns (next scope) fun o => ∀ i ∈ o, i.depth ≤ K)
include hdeeper

theorem depth_directiveAnywhere (word : DirectiveWord) :
    Returns (directiveAnywhere v L deeper scope word) fun o => ∀ k ∈ o, k.depth ≤ L := by
  have hconditional (family : Family) : Returns (nested deeper fun next => do
      return some (← conditional family word (Parser.expression v (L - 1) true)
        (allItems (next scope) endsBranch))) fun o => ∀ k ∈ o, k.depth ≤ L := by
    refine returns_nested fun next hnext => ?_
    obtain ⟨K, rfl, hK⟩ := hdeeper next hnext
    exact depth_some (depth_conditional (collected_allItems (hK scope) endsBranch)
      (Parser.depth_expression v K true) family word)
  unfold directiveAnywhere
  split
  · exact depth_statement .directive (Parser.depth_plainDirective? v L word _ (by assumption))
  · split
    · exact hconditional _
    · exact hconditional _
    · exact hconditional _
    · exact hconditional _
    · exact hconditional _
    · exact .bind fun _ => depth_statement (.bodyOp _) fun _ _ _ _ => Nat.zero_le L
    · exact depth_statement .expr (Parser.depth_expression v L false)
    · exact .bind fun _ => .bind fun _ => depth_none
    · exact depth_unexpected scope

theorem depth_directive (word : DirectiveWord) :
    Returns (directive v L deeper scope word) fun o => ∀ k ∈ o, k.depth ≤ L := by
  refine .bind fun _ => ?_
  refine (depth_directiveAnywhere v scope hdeeper word).bind_of fun _ ho => ?_
  exact .ite (fun _ => depth_none) fun _ => .pure ho

theorem depth_macroItem (isList : Bool) :
    Returns (macroItem deeper scope isList) fun o => ∀ k ∈ o, k.depth ≤ L := by
  have hmacro : Returns (nested deeper fun next => macroDecl isList
      (allItems (next ⟨if isList then .listBody else .macroBody, true⟩) (· == .mark .closeBrace)))
      fun k => k.depth ≤ L := by
    refine returns_nested fun next hnext => ?_
    obtain ⟨K, rfl, hK⟩ := hdeeper next hnext
    exact depth_macroDecl (collected_allItems (hK _) _) isList
  refine .bind fun c => ?_
  refine hmacro.bind_of fun k hk => ?_
  refine .ite (fun _ => depth_none) fun _ => .pure ?_
  rintro _ ⟨⟩
  exact hk

theorem depth_leaf (t : Token) :
    Returns (leaf v L deeper scope t) fun o => ∀ k ∈ o, k.depth ≤ L := by
  have hexpr := Parser.depth_expression v L true
  have hparameter : Returns (do return some (.parameter (← Parser.markedParameter v)) :
      ItemParser (Option ItemKind)) fun o => ∀ k ∈ o, k.depth ≤ L :=
    depth_statement .parameter Parser.depth_markedParameter
  unfold leaf
  dsimp only
  split
  · exact depth_statement id (Parser.depth_declaration hexpr scope _)
  · exact depth_statement id (Parser.depth_declaration hexpr scope _)
  · exact depth_statement id (Parser.depth_existing hexpr)
  · exact depth_macroItem scope hdeeper false
  · exact depth_macroItem scope hdeeper true
  · exact depth_directive v scope hdeeper _
  · exact hparameter
  · exact hparameter
  · exact depth_statement .equation (Parser.depth_equation hexpr _)
  · exact depth_statement id (Parser.depth_wordItem v L scope _)
  · exact .bind fun _ => depth_none
  · refine .ite (fun _ => returns_nested fun next hnext => ?_) fun _ => .ite (fun _ => ?_)
      fun _ => depth_unexpected scope
    · obtain ⟨K, rfl, hK⟩ := hdeeper next hnext
      exact depth_some (depth_block (collected_allItems (hK _) _))
    · exact depth_statement .expr (Parser.depth_expression v L false)

theorem depth_itemKind :
    Returns (itemKind v L deeper scope) fun o => ∀ k ∈ o, k.depth ≤ L := by
  refine .bind fun c => ?_
  split
  · exact depth_unexpected scope
  · refine .ite (fun _ => depth_some (depth_site (depth_located (.bind fun c => ?_)))) fun _ =>
      depth_leaf v scope hdeeper _
    cases c.peek? 0 with
    | none => exact .pure (by rintro _ ⟨⟩)
    | some t => exact depth_leaf v _ hdeeper t

end Level

/-- **An item has no more levels than are left.** -/
theorem depth_item (v : Vocabulary) (L : Nat) (scope : Scope) :
    Returns (item v L scope) fun o => ∀ i ∈ o, i.depth ≤ L := by
  induction L generalizing scope with
  | zero => exact depth_located (depth_itemKind v scope (by rintro _ ⟨⟩))
  | succ L ih =>
    refine depth_located (depth_itemKind v scope ?_)
    rintro _ ⟨⟩
    exact ⟨L, rfl, ih⟩

end ItemParser

/-- **No item of a document has more levels than the limit.** -/
theorem Parsed.depth_itemsOf (v : Vocabulary) (tokens : List Token) (textEnd : Nat) :
    ∀ i ∈ (itemsOf v tokens textEnd).1, i.depth ≤ maxNesting :=
  ItemParser.collected_allItems (ItemParser.depth_item v maxNesting _) _ _

end ControlFile
