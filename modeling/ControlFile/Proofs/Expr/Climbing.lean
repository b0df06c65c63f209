import ControlFile.Proofs.Expr.Modes

/-!
# Climbing the levels

`Parser.comparison` has a loop for each level of operations, and the operands of one loop are what the
loop of the next level reads.  Another way to read operations is to climb: an operand, and then, as long
as the operation ahead is of a given level or of a higher one, its symbol and a right side, whose
operations are of higher levels only.

`Parser.tail height` is what stands behind the first operand of an expression whose operations are those
of the `height` highest levels.  It goes on as one does who climbs (`Parser.tail_eq`).  This is an
induction on the height.  The loop of the lowest level goes on with an operation of its own level; behind
the right side of that operation the loops of the higher levels have nothing to do, as they have ended
there (`Parser.operation_of_strata`), and so what follows is the whole tail again.

The loops have a limit, which is the number of tokens ahead.  For this the operand has to take a token
each time (`Parser.Progresses`); then a higher limit makes no difference (`Parser.operations_limit`).
-/

namespace ControlFile.Parser

variable {operand : Parser Expr} {juxtapose : Bool} {level height : Nat} {c c' : Cursor} {lhs e : Expr}

/-- What the parser reads takes a token. -/
def Progresses (p : Parser Expr) : Prop :=
  ∀ c, Ensures p c fun _ c' => c'.rest.length < c.rest.length

/-! ### Operations ahead -/

theorem length_pos_of_operation {op : BinaryOp} (h : operation? juxtapose c = some op) :
    0 < c.rest.length := by
  refine List.length_pos_iff.2 fun hrest => ?_
  rw [operation?, Cursor.kind?, Cursor.peek?, hrest] at h
  cases h

/-- The operations of expressions have three levels: a power is part of an operand. -/
theorem level_of_operation {op : BinaryOp} (h : operation? juxtapose c = some op) :
    1 ≤ op.level ∧ op.level ≤ 3 := by
  have hpow : op ≠ .pow := by
    rintro rfl
    unfold operation? at h
    split at h
    all_goals grind
  cases op <;> first | exact absurd rfl hpow | decide

theorem ensures_skipSymbol (op : BinaryOp) (c : Cursor) :
    Ensures (skipSymbol op) c fun _ c' => c'.rest.length ≤ c.rest.length := by
  unfold skipSymbol
  split
  · exact .pure (Nat.le_refl _)
  · intro _ c' h
    cases h
    rw [Cursor.length_rest_advance]
    exact Nat.sub_le _ _

/-! ### The loop of one level -/

/-- The same operand may be followed by different parsers that come to the same. -/
theorem bind_congr_ok {α β : Type} {p : Parser α} {f g : α → Parser β}
    (h : Ensures p c fun a c' => f a c' = g a c') : (p >>= f) c = (p >>= g) c := by
  cases hp : p c with
  | ok a c' => rw [bind_of_ok hp, bind_of_ok hp, h a c' hp]
  | error d c' => rw [bind_of_error hp, bind_of_error hp]

theorem bind_congr_run {α β : Type} {p q : Parser α} {f : α → Parser β} (h : p c = q c) :
    (p >>= f) c = (q >>= f) c := by
  change EStateM.bind p f c = EStateM.bind q f c
  rw [EStateM.bind, EStateM.bind, h]

/-- The loop is not ended by its limit if this is the number of tokens ahead, or higher. -/
theorem operations_limit (hoperand : Progresses operand) {n m : Nat} (hn : c.rest.length ≤ n)
    (hm : n ≤ m) :
    operations juxtapose level operand m lhs c = operations juxtapose level operand n lhs c := by
  induction n generalizing m lhs c with
  | zero =>
    have hnone : operation? juxtapose c = none := by
      cases hop : operation? juxtapose c with
      | none => rfl
      | some op => exact absurd (length_pos_of_operation hop) (Nat.not_lt.2 hn)
    rw [operations_of_none hnone, operations_of_none hnone]
  | succ n ih =>
    obtain ⟨m, rfl⟩ := Nat.exists_eq_succ_of_ne_zero (Nat.ne_of_gt (Nat.zero_lt_of_lt hm))
    rw [operations, operations, get_bind, get_bind]
    cases operation? juxtapose c with
    | none => rfl
    | some op =>
      dsimp only
      split
      · refine bind_congr_ok fun _ c₁ hskip => bind_congr_ok fun rhs c₂ hrhs => ?_
        have hskip := ensures_skipSymbol op c _ _ hskip
        have hrhs := hoperand c₁ _ _ hrhs
        exact ih (by omega) (Nat.le_of_succ_le_succ hm)
      · rfl

/-- The operations of one level behind `lhs`, to their end. -/
def loop (juxtapose : Bool) (level : Nat) (operand : Parser Expr) (lhs : Expr) : Parser Expr := do
  operations juxtapose level operand (← get).rest.length lhs

theorem loop_of_none (h : operation? juxtapose c = none) :
    loop juxtapose level operand lhs c = .ok lhs c := operations_of_none h lhs

theorem loop_of_ne {op : BinaryOp} (h : operation? juxtapose c = some op) (hlevel : op.level ≠ level) :
    loop juxtapose level operand lhs c = .ok lhs c := by
  rw [loop, get_bind]
  cases c.rest.length with
  | zero => rfl
  | succ n =>
    rw [operations, get_bind, h]
    dsimp only
    rw [if_neg hlevel]
    rfl

/-- At an operation of its level the loop goes round once, and again. -/
theorem loop_of_eq (hoperand : Progresses operand) {op : BinaryOp}
    (h : operation? juxtapose c = some op) (hlevel : op.level = level) :
    loop juxtapose level operand lhs c = (do
      skipSymbol op
      let rhs ← operand
      loop juxtapose level operand (.binary op lhs rhs)) c := by
  obtain ⟨n, hn⟩ := Nat.exists_eq_succ_of_ne_zero (Nat.ne_of_gt (length_pos_of_operation h))
  rw [loop, get_bind, hn, operations, get_bind, h]
  dsimp only
  rw [if_pos hlevel]
  refine bind_congr_ok fun _ c₁ hskip => bind_congr_ok fun rhs c₂ hrhs => ?_
  have hskip := ensures_skipSymbol op c _ _ hskip
  have hrhs := hoperand c₁ _ _ hrhs
  exact operations_limit hoperand (Nat.le_refl _) (by omega)

/-- No operation of level `least` or of a higher one is ahead. -/
def Below (juxtapose : Bool) (least : Nat) (c : Cursor) : Prop :=
  ∀ op, operation? juxtapose c = some op → op.level < least

theorem below_of_none {least : Nat} (h : operation? juxtapose c = none) : Below juxtapose least c := by
  intro op hop
  rw [h] at hop
  cases hop

theorem below_of_lt {least : Nat} {op : BinaryOp} (h : operation? juxtapose c = some op)
    (hlevel : op.level < least) : Below juxtapose least c := by
  intro op' hop
  rw [h] at hop
  cases hop
  exact hlevel

theorem loop_of_below (h : Below juxtapose level c) :
    loop juxtapose level operand lhs c = .ok lhs c := by
  cases hop : operation? juxtapose c with
  | none => exact loop_of_none hop
  | some op => exact loop_of_ne hop (Nat.ne_of_lt (h op hop))

/-- What holds behind each operand holds behind the loop, no operation of its level is ahead there, and
reading has not gone back. -/
theorem ensures_loop (hoperand : Progresses operand) {I : Cursor → Prop}
    (hround : ∀ c, Ensures operand c fun _ => I) (hc : I c) :
    Ensures (loop juxtapose level operand lhs) c fun _ c' => I c' ∧
      c'.rest.length ≤ c.rest.length ∧ ∀ op, operation? juxtapose c' = some op → op.level ≠ level := by
  induction hlength : c.rest.length using Nat.strongRecOn generalizing lhs c with
  | ind length ih =>
    intro e c' hrun
    cases hop : operation? juxtapose c with
    | none =>
      rw [loop_of_none hop] at hrun
      cases hrun
      exact ⟨hc, Nat.le_of_eq hlength, fun op hop' => by rw [hop] at hop'; cases hop'⟩
    | some op =>
      by_cases hlevel : op.level = level
      · rw [loop_of_eq hoperand hop hlevel] at hrun
        obtain ⟨_, c₁, hskip, hrun⟩ := ok_of_bind hrun
        obtain ⟨rhs, c₂, hrhs, hrun⟩ := ok_of_bind hrun
        have hle := ensures_skipSymbol op c _ _ hskip
        have hless := hoperand c₁ _ _ hrhs
        obtain ⟨hI, hrest, hends⟩ := ih _ (by omega) (hround c₁ _ _ hrhs) rfl e c' hrun
        exact ⟨hI, by omega, hends⟩
      · rw [loop_of_ne hop hlevel] at hrun
        cases hrun
        refine ⟨hc, Nat.le_of_eq hlength, fun op' hop' => ?_⟩
        rw [hop] at hop'
        cases hop'
        exact hlevel

/-! ### The levels -/

/-- Operands joined by the operations of the `height` highest levels. -/
def strata (juxtapose : Bool) (operand : Parser Expr) : (height : Nat) → Parser Expr
  | 0 => operand
  | height + 1 => grouped juxtapose (3 - height) (strata juxtapose operand height)

/-- The operations of the `height` highest levels behind the operand `lhs`. -/
def tail (juxtapose : Bool) (operand : Parser Expr) : (height : Nat) → Expr → Parser Expr
  | 0, lhs => return lhs
  | height + 1, lhs => do
    let lhs ← tail juxtapose operand height lhs
    loop juxtapose (3 - height) (strata juxtapose operand height) lhs

theorem comparison_eq (v : Vocabulary) (inner : Parser Expr) (juxtapose : Bool) :
    comparison v inner juxtapose = strata juxtapose (signed v inner) 3 := rfl

theorem strata_eq (juxtapose : Bool) (operand : Parser Expr) (height : Nat) :
    strata juxtapose operand height = operand >>= tail juxtapose operand height := by
  induction height with
  | zero => exact (bind_pure operand).symm
  | succ height ih =>
    calc strata juxtapose operand (height + 1)
      _ = (operand >>= tail juxtapose operand height) >>=
            loop juxtapose (3 - height) (strata juxtapose operand height) :=
        congrArg (· >>= loop juxtapose (3 - height) (strata juxtapose operand height)) ih
      _ = operand >>= tail juxtapose operand (height + 1) := bind_assoc operand _ _

theorem progresses_strata (hoperand : Progresses operand) (height : Nat) :
    Progresses (strata juxtapose operand height) := by
  induction height with
  | zero => exact hoperand
  | succ height ih =>
    intro c e c' hrun
    obtain ⟨lhs, c₁, hlhs, hrun⟩ := ok_of_bind hrun
    obtain ⟨-, hle, -⟩ := ensures_loop ih (I := fun _ => True) (fun _ _ _ _ => trivial) trivial _ _ hrun
    exact Nat.lt_of_le_of_lt hle (ih c _ _ hlhs)

/-- Behind the highest levels there is no operation of one of them. -/
theorem below_of_strata (hoperand : Progresses operand) (hheight : height ≤ 3) (c : Cursor) :
    Ensures (strata juxtapose operand height) c fun _ => Below juxtapose (4 - height) := by
  induction height generalizing c with
  | zero =>
    intro e c' _ op hop
    exact Nat.lt_succ_of_le (level_of_operation hop).2
  | succ height ih =>
    have hlevel : 4 - height = 3 - height + 1 := by omega
    have hends := ih (Nat.le_of_succ_le hheight)
    rw [hlevel] at hends
    intro e c' hrun
    obtain ⟨lhs, c₁, hlhs, hrun⟩ := ok_of_bind hrun
    obtain ⟨hbelow, -, hne⟩ :=
      ensures_loop (progresses_strata hoperand height) hends (hends c _ _ hlhs) e c' hrun
    intro op hop
    have hle := hbelow op hop
    have hlevel := hne op hop
    omega

/-! ### Climbing -/

/-- Before an operation of a lower level the tail is empty. -/
theorem tail_of_below (hc : Below juxtapose (4 - height) c) :
    tail juxtapose operand height lhs c = .ok lhs c := by
  induction height with
  | zero => rfl
  | succ height ih =>
    rw [Nat.succ_sub_succ] at hc
    have htail := ih fun op hop => Nat.lt_of_lt_of_le (hc op hop) (by omega)
    rw [tail, bind_of_ok htail]
    exact loop_of_below hc

/-- **The tail climbs**: an operation that is not of a lower level has a right side whose operations are
of higher levels, and the two sides are the left side of the same tail. -/
theorem tail_of_le (hoperand : Progresses operand) (hheight : height ≤ 3) {op : BinaryOp}
    (hop : operation? juxtapose c = some op) (hlevel : 4 - height ≤ op.level) :
    tail juxtapose operand height lhs c = (do
      skipSymbol op
      let rhs ← strata juxtapose operand (3 - op.level)
      tail juxtapose operand height (.binary op lhs rhs)) c := by
  induction height generalizing lhs with
  | zero => exact absurd (level_of_operation hop).2 (by omega)
  | succ height ih =>
    by_cases hown : op.level = 3 - height
    · -- The higher levels are at their end, in front of the operation and behind its right side.
      have hlower : Below juxtapose (4 - height) c := below_of_lt hop (by omega)
      have hrank : 3 - op.level = height := by omega
      rw [tail, bind_of_ok (tail_of_below hlower), hrank,
        loop_of_eq (progresses_strata hoperand height) hop hown]
      refine bind_congr_ok fun _ c₁ _ => bind_congr_ok fun rhs c₂ hrhs => ?_
      have hends := below_of_strata hoperand (Nat.le_of_succ_le hheight) c₁ _ _ hrhs
      exact (bind_of_ok (tail_of_below hends)).symm
    · refine (bind_congr_run (ih (Nat.le_of_succ_le hheight) (by omega))).trans ?_
      rw [bind_assoc]
      refine bind_congr_ok fun _ c₁ _ => ?_
      rw [bind_assoc]
      rfl

end ControlFile.Parser
