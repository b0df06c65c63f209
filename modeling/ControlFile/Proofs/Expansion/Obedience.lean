import ControlFile.Proofs.Expansion.Asking
import ControlFile.Proofs.Macro.Bodies
import ControlFile.Proofs.Macro.Words

/-!
# Demands on documents

Whatever demands on names, strings, arguments and operations the texts meet is met by all that they are
expanded to (`Session.parse_meets`), as long as copies keep to the demands and the unique names that have
been given out meet them (`Demands.Numbered`).  A step that `Obeys` gives out more names or none, and
leaves the heads and bodies of all macros as demanded: so what is passed to a macro is looked at as such.
-/

namespace ControlFile

namespace Expansion

variable {α β : Type}

/-! ### Steps that give out unique names -/

/-- The macro and its parameters have names that are looked at as such, and its body meets the
demands. -/
structure MacroMeets (d : Demands) (name : String) (entry : MacroEntry) : Prop where
  name : d.callee name
  head : ∀ n ∈ entry.signature.names, d.callee n
  body : ∀ i ∈ entry.body, i.Everywhere (Item.Meets d)

/-- All macros meet the demands. -/
abbrev MacrosMeet (d : Demands) (t : Tables) : Prop := t.macros.Entries (MacroMeets d)

/-- `n` unique names have been given out, and all macros meet the demands for them. -/
def Holding (D : Nat → Demands) (n : Nat) (r : Run) : Prop :=
  r.tables.uniqueCount = n ∧ MacrosMeet (D n) r.tables

/-- The step keeps to the demands, where at least `k` unique names have been given out. -/
abbrev Obeys (D : Nat → Demands) (k : Nat) (e : Expansion α) (Q : Nat → α → Prop) : Prop :=
  Counts (Holding D) k e Q

/-- All items meet the demands. -/
abbrev AllMeet (d : Demands) (is : List Item) : Prop := ∀ i ∈ is, i.Everywhere (Item.Meets d)

/-- What macros meet they still do when more names have been given out. -/
theorem MacrosMeet.mono {D : Nat → Demands} (hD : Demands.Numbered D) {k n : Nat} (h : k ≤ n)
    {t : Tables} (ht : MacrosMeet (D k) t) : MacrosMeet (D n) t := by
  intro name entry hentry
  have hmeets := ht name entry hentry
  exact ⟨(hD.callee h).2 hmeets.name, fun m hm => (hD.callee h).2 (hmeets.head m hm),
    hD.all h hmeets.body⟩

section Obeys

variable {D : Nat → Demands} {k : Nat} {e : Expansion α} {P : Nat → α → Prop} {Q : Nat → β → Prop}

theorem AllMeet.append {d : Demands} {is js : List Item} (his : AllMeet d is) (hjs : AllMeet d js) :
    AllMeet d (is ++ js) := fun i hi => (List.mem_append.1 hi).elim (his i) (hjs i)

/-- One item that has no items in it. -/
theorem AllMeet.leaf {d : Demands} {l : ItemKind} (hleaf : l.IsLeaf) (h : l.Meets d) (range : Extent) :
    AllMeet d [⟨l, range⟩] :=
  List.forall_mem_singleton.2 (Item.everywhere_iff.2 (hleaf.allMeet h))

namespace Obeys

theorem failAt (range : Extent) (fault : Fault) : Obeys D k (failAt range fault) P :=
  Counts.throw _

/-- Nothing is changed but what the demands do not look at. -/
theorem still {a : α} {f : Run → Run} (h : ∀ r, (f r).tables = r.tables)
    (ha : ∀ n, k ≤ n → P n a) : Obeys D k (fun r => .ok a (f r)) P := by
  intro n r hn hr
  refine ⟨n, Nat.le_refl n, ?_, ha n hn⟩
  unfold Holding
  rw [h]
  exact hr

/-- The macros meet the demands that the tables are read with. -/
theorem tables_bind {f : Tables → Expansion β}
    (h : ∀ n, k ≤ n → ∀ t : Tables, MacrosMeet (D n) t → Obeys D n (f t) Q) :
    Obeys D k (tables >>= f) Q :=
  fun n _ hn hr => h n hn _ hr.2 n _ (Nat.le_refl n) hr

theorem modifyTables {f : Tables → Tables} (hcount : ∀ t, (f t).uniqueCount = t.uniqueCount)
    (hmacros : ∀ n, k ≤ n → ∀ t : Tables, MacrosMeet (D n) t → MacrosMeet (D n) (f t)) :
    Obeys D k (modifyTables f) fun _ _ => True :=
  fun n _ hn hr => ⟨n, Nat.le_refl n, ⟨(hcount _).trans hr.1, hmacros n hn _ hr.2⟩, trivial⟩

theorem liftFault (range : Extent) (result : Except Fault α) :
    Obeys D k (liftFault range result) fun _ _ => True := by
  cases result with
  | ok a => exact .pure fun _ _ => trivial
  | error fault => exact failAt range fault

theorem reportParsed (config : Config) (frame : Frame) (parsed : Parsed) :
    Obeys D k (reportParsed config frame parsed) fun _ _ => True :=
  still (fun _ => rfl) fun _ _ => trivial

theorem ask (config : Config) (path : String) :
    Obeys D k (ask config path) fun _ text => text = config.resolver path :=
  still (f := fun r => { r with asked := path :: r.asked }) (fun _ => rfl) fun _ _ => rfl

theorem checkCancelled (config : Config) (range : Extent) :
    Obeys D k (checkCancelled config range) fun _ _ => True := by
  refine Counts.bind (e := get) (P := fun _ _ => True) (fun n _ _ hr => ⟨n, Nat.le_refl n, hr, trivial⟩)
    fun _ _ _ _ => ?_
  exact .ite (failAt range _) (.pure fun _ _ => trivial)

theorem relocating {range : Extent} (he : Obeys D k e P) : Obeys D k (relocating range e) P := by
  intro n r hn hr
  have hstep := he n r hn hr
  unfold Expansion.relocating
  cases hrun : e r with
  | ok a r' =>
    rw [hrun] at hstep
    exact hstep
  | error d r' =>
    rw [hrun] at hstep
    exact hstep

/-- A failure that is reported gives no items. -/
theorem alone {frame : Frame} {e : Expansion (List Item)} {P : Nat → Item → Prop}
    (he : Obeys D k e fun n is => ∀ i ∈ is, P n i) :
    Obeys D k (alone frame e) fun n is => ∀ i ∈ is, P n i := by
  intro n r hn hr
  have hstep := he n r hn hr
  unfold Expansion.alone
  cases hrun : e r with
  | ok items r' =>
    rw [hrun] at hstep
    exact hstep
  | error d r' =>
    rw [hrun] at hstep
    by_cases hd : d.fault = .cancelled
    · simp only [if_pos hd]
      exact hstep
    · simp only [if_neg hd]
      obtain ⟨m, hm, hr'⟩ := hstep
      exact ⟨m, hm, hr', List.forall_mem_nil _⟩

theorem mapM {R : Nat → β → Prop} {f : α → Expansion β} {as : List α}
    (hR : ∀ n m b, n ≤ m → R n b → R m b) (h : ∀ a ∈ as, ∀ n, k ≤ n → Obeys D n (f a) R) :
    Obeys D k (as.mapM f) fun n bs => ∀ b ∈ bs, R n b := by
  induction as generalizing k with
  | nil => exact .pure fun _ _ => List.forall_mem_nil _
  | cons a as ih =>
    rw [List.mapM_cons]
    obtain ⟨ha, has⟩ := List.forall_mem_cons.1 h
    refine (ha k (Nat.le_refl k)).bind fun n hn b hb => ?_
    refine (ih fun a' ha' m hm => has a' ha' m (Nat.le_trans hn hm)).bind fun m hm bs hbs => ?_
    refine .pure fun l hl => ?_
    exact List.forall_mem_cons.2 ⟨hR n l b (Nat.le_trans hm hl) hb,
      fun c hc => hR m l c hl (hbs c hc)⟩

theorem adps {R : Nat → β → Prop} {f : α → Expansion β} {as : Adps α}
    (hR : ∀ n m b, n ≤ m → R n b → R m b) (h : ∀ a ∈ as.toList, ∀ n, k ≤ n → Obeys D n (f a) R) :
    Obeys D k (as.mapM f) fun n bs => ∀ b ∈ bs.toList, R n b := by
  obtain ⟨a₁, a₂, a₃, a₄, a₅, a₆⟩ := as
  simp only [Adps.toList, List.forall_mem_cons, List.not_mem_nil, false_implies, implies_true,
    and_true] at h
  obtain ⟨h₁, h₂, h₃, h₄, h₅, h₆⟩ := h
  refine (h₁ k (Nat.le_refl k)).bind fun n₁ hn₁ b₁ hb₁ => ?_
  refine (h₂ n₁ hn₁).bind fun n₂ hn₂ b₂ hb₂ => ?_
  refine (h₃ n₂ (by omega)).bind fun n₃ hn₃ b₃ hb₃ => ?_
  refine (h₄ n₃ (by omega)).bind fun n₄ hn₄ b₄ hb₄ => ?_
  refine (h₅ n₄ (by omega)).bind fun n₅ hn₅ b₅ hb₅ => ?_
  refine (h₆ n₅ (by omega)).bind fun n₆ hn₆ b₆ hb₆ => ?_
  refine .pure fun l hl => ?_
  simp only [Adps.toList, List.forall_mem_cons, List.not_mem_nil, false_implies, implies_true,
    and_true]
  exact ⟨hR n₁ l b₁ (by omega) hb₁, hR n₂ l b₂ (by omega) hb₂, hR n₃ l b₃ (by omega) hb₃,
    hR n₄ l b₄ (by omega) hb₄, hR n₅ l b₅ (by omega) hb₅, hR n₆ l b₆ hl hb₆⟩

variable (hD : Demands.Numbered D)
include hD

theorem nextUnique : Obeys D k nextUnique fun n u => (D n).name u := by
  rintro n r _ ⟨rfl, hmacros⟩
  have hle := Nat.le_succ r.tables.uniqueCount
  exact ⟨r.tables.uniqueCount + 1, hle, ⟨rfl, MacrosMeet.mono hD hle hmacros⟩,
    hD.unique r.tables.uniqueCount⟩

/-- What is copied from an item that meets the demands meets them. -/
theorem substitute {s : Substitution} (hs : s.Meets (D k)) (range : Extent) {i : Item}
    (hi : i.Everywhere (Item.Meets (D k))) :
    Obeys D k (substitute s range i) fun n o => ∀ j ∈ o, j.Everywhere (Item.Meets (D n)) := by
  rintro n r hn ⟨rfl, hmacros⟩
  have hcopy := Item.meets_substitute hD hs i hi r.tables.uniqueCount r.tables.uniqueCount hn rfl
  unfold Expansion.substitute
  cases hrun : i.substitute s r.tables.uniqueCount with
  | ok j m =>
    rw [hrun] at hcopy
    obtain ⟨m', hm, hcount, hj⟩ := hcopy
    subst hcount
    exact ⟨m', hm, ⟨rfl, MacrosMeet.mono hD hm hmacros⟩, hj⟩
  | error fault m =>
    rw [hrun] at hcopy
    obtain ⟨m', hm, hcount⟩ := hcopy
    subst hcount
    exact ⟨m', hm, rfl, MacrosMeet.mono hD hm hmacros⟩

end Obeys

end Obeys

/-! ### Calls and expressions -/

/-- All arguments that names are bound to meet the demands, and so do the names. -/
def BoundMeet (d : Demands) (bound : Bindings) : Prop :=
  ∀ n a, bound.get? n = some a → d.callee n ∧ a.Meets d True

/-- The names of the parameters are looked at as those of macros. -/
abbrev ParamsMeet (d : Demands) (params : List MacroParam) : Prop :=
  ∀ p ∈ params, ∀ n ∈ p.name, d.callee n

theorem MacroMeets.params {d : Demands} {name : String} {entry : MacroEntry}
    (h : MacroMeets d name entry) : ParamsMeet d entry.signature.params := by
  intro p hp n hn
  exact h.head n (List.mem_cons_of_mem _ (List.mem_filterMap.2 ⟨p, hp, hn⟩))

theorem BoundMeet.bindParam {d : Demands} {bound : Bindings} (h : BoundMeet d bound) {p : MacroParam}
    (hp : ∀ n ∈ p.name, d.callee n) {a : Argument} (ha : a.Meets d True) :
    BoundMeet d (bindParam p a bound) := by
  unfold Expansion.bindParam
  cases hname : p.name with
  | none => exact h
  | some n =>
    intro m b hb
    rw [Assoc.get?_cons] at hb
    split at hb
    · rename_i hm
      cases hb
      exact ⟨hm ▸ hp n hname, ha⟩
    · exact h m b hb

theorem BoundMeet.bindHoles {d : Demands} {bound : Bindings} (h : BoundMeet d bound)
    {params : List MacroParam} (hparams : ParamsMeet d params) :
    BoundMeet d (bindHoles params bound) := by
  unfold Expansion.bindHoles
  induction params generalizing bound with
  | nil => exact h
  | cons p ps ih =>
    obtain ⟨hp, hps⟩ := List.forall_mem_cons.1 hparams
    exact ih (h.bindParam hp (a := .hole) trivial) hps

theorem boundMeet_nil {d : Demands} : BoundMeet d [] := by
  rintro n a ⟨⟩

section Places

variable {D : Nat → Demands} (hD : Demands.Numbered D) {k : Nat} {place : Place}

/-- The level below keeps to the demands. -/
def ObeysBelow (D : Nat → Demands) (below : Below) : Prop :=
  ∀ one ∈ below, ∀ frame k i, i.Everywhere (Item.Meets (D k)) →
    Obeys D k (one frame i) fun n is => AllMeet (D n) is

include hD

theorem BoundMeet.mono {n : Nat} (h : k ≤ n) {bound : Bindings} (hbound : BoundMeet (D k) bound) :
    BoundMeet (D n) bound := fun m a ha =>
  ⟨(hD.callee h).2 (hbound m a ha).1, hD.argument h (hbound m a ha).2⟩

theorem ParamsMeet.mono {n : Nat} (h : k ≤ n) {params : List MacroParam}
    (hparams : ParamsMeet (D k) params) : ParamsMeet (D n) params := fun p hp m hm =>
  (hD.callee h).2 (hparams p hp m hm)

theorem obeys_append {one rest : Expansion (List Item)}
    (hone : Obeys D k one fun n is => AllMeet (D n) is)
    (hrest : ∀ n, k ≤ n → Obeys D n rest fun m is => AllMeet (D m) is) :
    Obeys D k (do return (← one) ++ (← rest)) fun n is => AllMeet (D n) is := by
  refine hone.bind fun n hn _ his => ?_
  refine (hrest n hn).bind fun _ hm _ hjs => ?_
  exact .pure fun _ hl => AllMeet.append (hD.all (Nat.le_trans hm hl) his) (hD.all hl hjs)

theorem obeys_expandBody {one : Item → Expansion (List Item)} {s : Substitution} (range : Extent)
    (hone : ∀ n, k ≤ n → ∀ i, i.Everywhere (Item.Meets (D n)) →
      Obeys D n (one i) fun m is => AllMeet (D m) is)
    (hs : s.Meets (D k)) {body : List Item} (hbody : AllMeet (D k) body) :
    Obeys D k (expandBody s range one body) fun n is => AllMeet (D n) is := by
  induction body generalizing k with
  | nil => exact .pure fun _ _ => List.forall_mem_nil _
  | cons i is ih =>
    obtain ⟨hi, his⟩ := List.forall_mem_cons.1 hbody
    rw [expandBody]
    refine (Obeys.substitute hD hs range hi).bind fun n hn o ho => ?_
    have hrest : ∀ m, n ≤ m → Obeys D m (expandBody s range one is) fun l is => AllMeet (D l) is :=
      fun m hm => ih (fun l hl => hone l (Nat.le_trans hn (Nat.le_trans hm hl)))
        (hD.substitution (Nat.le_trans hn hm) hs) (hD.all (Nat.le_trans hn hm) his)
    cases o with
    | some j => exact obeys_append hD (hone n hn j (ho j rfl)) hrest
    | none => exact obeys_append hD (.pure fun _ _ => List.forall_mem_nil _) hrest

variable (hbelow : ObeysBelow D place.below)
include hbelow

theorem obeys_callWith (name : String) (count : Nat) {bind : Signature → Expansion Bindings}
    (hbind : ∀ signature n, k ≤ n → (D n).callee name → ParamsMeet (D n) signature.params →
      Obeys D n (bind signature) fun m bound => BoundMeet (D m) bound) :
    Obeys D k (callWith place name count bind) fun n is => AllMeet (D n) is := by
  refine .tables_bind fun n hn t ht => ?_
  cases hentry : t.macros.get? name with
  | none => exact Obeys.failAt _ _
  | some entry =>
    refine .ite (Obeys.failAt _ _) ?_
    cases hlevel : place.below with
    | none => exact Obeys.failAt _ _
    | some below =>
      have hmacro := ht name entry hentry
      refine (hbind entry.signature n hn hmacro.name hmacro.params).bind fun m hm bound hbound => ?_
      refine (Obeys.nextUnique hD).bind fun l hl unique hunique => ?_
      have hbound := hbound.mono hD hl
      have hs : Substitution.Meets (D l) ⟨bound, unique⟩ :=
        ⟨hunique, fun n a ha => (hbound n a ha).1, fun n a ha => (hbound n a ha).2⟩
      have hbody := hD.all (Nat.le_trans hm hl) hmacro.body
      refine (Obeys.relocating (obeys_expandBody hD _ (fun _ _ i hi => ?_) hs hbody)).bind
        fun n' _ items hitems => .pure fun m' hm' => ?_
      · exact hbelow below hlevel _ _ i hi
      · refine List.forall_mem_map.2 fun i hi => ?_
        obtain ⟨hself, hinner⟩ := Item.everywhere_iff.1 (hD.everywhere hm' (hitems i hi))
        exact Item.everywhere_iff.2 ⟨hself, hinner⟩

theorem obeys_inlineWith (name : String) (count : Nat) {bind : Signature → Expansion Bindings}
    (hbind : ∀ signature n, k ≤ n → (D n).callee name → ParamsMeet (D n) signature.params →
      Obeys D n (bind signature) fun m bound => BoundMeet (D m) bound) :
    Obeys D k (inlineWith place name count bind) fun n e => e.Meets (D n) True ∧ e.isCompound = false := by
  refine (obeys_callWith hD hbelow name count hbind).bind fun n _ items hitems => ?_
  split
  · rename_i e range
    have he : e.Meets (D n) True := (hitems _ List.mem_cons_self).self
    exact .pure fun m hm => ⟨Expr.parenthesized_meets (hD.expr hm he), e.isCompound_parenthesized⟩
  · exact Obeys.failAt _ _

end Places

section Expressions

variable {D : Nat → Demands} {place : Place}

mutual

/-- **Expanded expressions meet the demands**, and hold together as tightly as before. -/
theorem obeys_expandExpr (hD : Demands.Numbered D) (hbelow : ObeysBelow D place.below) {k : Nat}
    {passed : Prop} : ∀ e : Expr, e.Meets (D k) passed →
      Obeys D k (expandExpr place e) fun n e' => e'.Meets (D n) passed ∧ e.Leads e'
  | .literal value, h => by
    rw [expandExpr]
    exact .pure fun n hn => ⟨hD.expr (e := .literal value) hn h, .refl _⟩
  | .ident name, h => by
    rw [expandExpr]
    refine Obeys.tables_bind fun n hn t _ => .ite ?_ (.pure fun m hm =>
      ⟨hD.expr (e := .ident name) (Nat.le_trans hn hm) h, .refl _⟩)
    exact (obeys_inlineWith hD hbelow name 0 fun _ _ _ _ hparams =>
      .pure fun _ hl => boundMeet_nil.bindHoles (hparams.mono hD hl)).weaken fun _ _ he =>
        ⟨he.1.mono fun _ => trivial, .of_word rfl he.2⟩
  | .call name as range, h => by
    rw [expandExpr]
    refine Obeys.tables_bind fun n hn t _ => .ite ?_ (.ite (Obeys.failAt _ _) ?_)
    · exact (obeys_inlineWith hD hbelow name as.length fun signature m hm hcallee hparams =>
        obeys_bindArguments hD hbelow signature.byReference hparams boundMeet_nil as
          (hD.passedArguments (Nat.le_trans hn hm) hcallee h)).weaken fun _ _ he =>
            ⟨he.1.mono fun _ => trivial, .of_word rfl he.2⟩
    · refine (obeys_expandArguments hD hbelow as (hD.arguments hn h.2)).bind fun m hm bs hbs =>
        .pure fun l hl => ?_
      have hnl := Nat.le_trans hn (Nat.le_trans hm hl)
      have hname := (hD.mono k l hnl).name name h.1 h.1
      exact ⟨⟨hname, (hD.arguments hl hbs).mono (Or.imp_right (hD.callee hnl).1)⟩, .of_word rfl rfl⟩
  | .unary op operand, h => by
    rw [expandExpr]
    refine (obeys_expandExpr hD hbelow operand h.2).bind fun n hn e' he => .pure fun m hm => ?_
    have hoperation := hD.operation (Nat.le_trans hn hm) ((hD.closed k).unary he.2 h.1)
    exact ⟨⟨hoperation, hD.expr hm he.1⟩, he.2.unary op⟩
  | .binary op lhs rhs, h => by
    rw [expandExpr]
    refine (obeys_expandExpr hD hbelow lhs h.2.1).bind fun n hn l hl =>
      (obeys_expandExpr hD hbelow rhs (hD.expr hn h.2.2)).bind fun m hm r hr =>
        .pure fun m' hm' => ?_
    have hoperation := hD.operation (Nat.le_trans hn (Nat.le_trans hm hm'))
      ((hD.closed k).binary hl.2 hr.2 h.1)
    exact ⟨⟨hoperation, hD.expr (Nat.le_trans hm hm') hl.1, hD.expr hm' hr.1⟩, hl.2.binary op rhs r⟩
  | .paren inner, h => by
    rw [expandExpr]
    exact (obeys_expandExpr hD hbelow inner h).bind fun n hn e' he =>
      .pure fun m hm => ⟨hD.expr hm he.1, .paren inner e'⟩

theorem obeys_bindArguments (hD : Demands.Numbered D) (hbelow : ObeysBelow D place.below)
    (byReference : Bool) {k : Nat} {params : List MacroParam} (hparams : ParamsMeet (D k) params)
    {bound : Bindings} (hbound : BoundMeet (D k) bound) : ∀ as : List Argument,
      Argument.AllMeet (D k) True as →
      Obeys D k (bindArguments place byReference params bound as) fun n bound => BoundMeet (D n) bound
  | [], _ => by
    rw [bindArguments]
    exact .pure fun n hn => (hbound.mono hD hn).bindHoles (hparams.mono hD hn)
  | a :: as, h => by
    cases params with
    | nil =>
      rw [bindArguments]
      exact .pure fun n hn => hbound.mono hD hn
    | cons p ps =>
      rw [bindArguments]
      obtain ⟨hp, hps⟩ := List.forall_mem_cons.1 hparams
      have hrest : ∀ n, k ≤ n → ∀ b : Argument, b.Meets (D n) True →
          Obeys D n (bindArguments place byReference ps (bindParam p b bound) as)
            fun m bound => BoundMeet (D m) bound := by
        intro n hn b hb
        have hbound := (hbound.mono hD hn).bindParam (fun m hm => (hD.callee hn).2 (hp m hm)) hb
        exact obeys_bindArguments hD hbelow byReference (ParamsMeet.mono hD hn hps) hbound as
          (hD.arguments hn h.2)
      refine .ite ?_ ?_
      · exact (Counts.pure fun n hn => hD.argument hn h.1).bind hrest
      · exact (obeys_expandArgument hD hbelow a h.1).bind hrest

theorem obeys_expandArguments (hD : Demands.Numbered D) (hbelow : ObeysBelow D place.below) {k : Nat}
    {passed : Prop} : ∀ as : List Argument, Argument.AllMeet (D k) passed as →
      Obeys D k (expandArguments place as) fun n bs => Argument.AllMeet (D n) passed bs
  | [], _ => by
    rw [expandArguments]
    exact .pure fun _ _ => trivial
  | a :: as, h => by
    rw [expandArguments]
    refine (obeys_expandArgument hD hbelow a h.1).bind fun n hn b hb => ?_
    refine (obeys_expandArguments hD hbelow as (hD.arguments hn h.2)).bind fun m hm bs hbs => ?_
    exact .pure fun l hl => ⟨hD.argument (Nat.le_trans hm hl) hb, hD.arguments hl hbs⟩

theorem obeys_expandArgument (hD : Demands.Numbered D) (hbelow : ObeysBelow D place.below) {k : Nat}
    {passed : Prop} : ∀ a : Argument, a.Meets (D k) passed →
      Obeys D k (expandArgument place a) fun n b => b.Meets (D n) passed
  | .hole, _ => by
    rw [expandArgument]
    exact .pure fun _ _ => trivial
  | .expr e, h => by
    rw [expandArgument]
    refine (obeys_expandExpr hD hbelow e h.2).bind fun n hn e' he =>
      .pure fun m hm => hD.argument (a := .expr e') hm ⟨fun hpassed => ?_, he.1⟩
    have hargument := (hD.closed k).argument he.2 (h.1 hpassed)
    exact (hD.mono k n hn).argument e' hargument hargument
  | .parameter p, h => by
    rw [expandArgument]
    exact (obeys_expandParameter hD hbelow p h).bind fun n hn q hq =>
      .pure fun m hm => hD.argument (a := .parameter q) hm hq
  | .equation e, h => by
    rw [expandArgument]
    exact (obeys_expandEquation hD hbelow e h).bind fun n hn f hf =>
      .pure fun m hm => hD.argument (a := .equation f) hm hf

theorem obeys_expandParameter (hD : Demands.Numbered D) (hbelow : ObeysBelow D place.below) {k : Nat}
    {passed : Prop} : ∀ p : Parameter, p.Meets (D k) passed →
      Obeys D k (expandParameter place p) fun n q => q.Meets (D n) passed
  | ⟨mark, name, value⟩, h => by
    rw [expandParameter]
    refine (obeys_expandValue hD hbelow value h.2).bind fun n hn w hw => .pure fun m hm => ?_
    have hname : ∀ x ∈ name, (D n).name x := fun x hx => (hD.mono k n hn).name x (h.1 x hx) (h.1 x hx)
    exact hD.argument (a := .parameter ⟨mark, name, w⟩) hm ⟨hname, hw⟩

theorem obeys_expandValue (hD : Demands.Numbered D) (hbelow : ObeysBelow D place.below) {k : Nat}
    {passed : Prop} : ∀ w : Value, w.Meets (D k) passed →
      Obeys D k (expandValue place w) fun n w' => w'.Meets (D n) passed
  | .absent, _ => by
    rw [expandValue]
    exact .pure fun _ _ => trivial
  | .literal value, h => by
    rw [expandValue]
    exact .pure fun n hn => hD.expr (e := .literal value) hn h
  | .equation e, h => by
    rw [expandValue]
    exact (obeys_expandEquation hD hbelow e h).bind fun n hn f hf =>
      .pure fun m hm => hD.argument (a := .equation f) hm hf

theorem obeys_expandEquation (hD : Demands.Numbered D) (hbelow : ObeysBelow D place.below) {k : Nat}
    {passed : Prop} : ∀ e : Equation, e.Meets (D k) passed →
      Obeys D k (expandEquation place e) fun n f => f.Meets (D n) passed
  | ⟨op, body, uncertainty⟩, h => by
    rw [expandEquation]
    exact (obeys_expandExpr hD hbelow body h).bind fun n hn e' he =>
      .pure fun m hm => hD.argument (a := .equation ⟨op, e', uncertainty⟩) hm he.1

end

end Expressions

section Places

variable {D : Nat → Demands} (hD : Demands.Numbered D) {k : Nat} {place : Place}
variable (hbelow : ObeysBelow D place.below)
include hD hbelow

theorem obeys_evaluate {e : Expr} {passed : Prop} (h : e.Meets (D k) passed) :
    Obeys D k (evaluate place e) fun _ _ => True := by
  refine (obeys_expandExpr hD hbelow e h).bind fun _ _ _ _ => ?_
  exact Obeys.tables_bind fun _ _ _ _ => Obeys.liftFault _ _

theorem obeys_holds {c : Condition} (h : c.Meets (D k)) : Obeys D k (holds place c) fun _ _ => True := by
  cases c <;> rw [holds]
  case expr e => exact (obeys_evaluate hD hbelow h).bind fun _ _ _ _ => .pure fun _ _ => trivial
  case defined symbol negated => exact Obeys.tables_bind fun _ _ _ _ => .pure fun _ _ => trivial
  case argument param test => exact Obeys.failAt _ _

theorem obeys_expandExprItem {e : Expr} (h : e.Meets (D k) True) :
    Obeys D k (expandExprItem place e) fun n is => AllMeet (D n) is := by
  have hkeep : ∀ n, k ≤ n → Obeys D n
      (do return [(⟨.expr (← expandExpr place e), place.range⟩ : Item)]) fun m is => AllMeet (D m) is :=
    fun n hn => (obeys_expandExpr hD hbelow e (hD.expr hn h)).bind fun m hm e' he =>
      .pure fun l hl => .leaf (l := .expr e') trivial (hD.expr hl he.1) _
  refine Obeys.tables_bind fun n hn t _ => ?_
  cases e with
  | call name as range =>
    exact .ite (obeys_callWith hD hbelow name as.length fun signature m hm hcallee hparams =>
      obeys_bindArguments hD hbelow signature.byReference hparams boundMeet_nil as
        (hD.passedArguments (Nat.le_trans hn hm) hcallee h)) (hkeep n hn)
  | ident name =>
    refine .ite ?_ ?_
    · exact obeys_callWith hD hbelow name 0 fun _ _ _ _ hparams => .pure fun _ hl =>
        boundMeet_nil.bindHoles (hparams.mono hD hl)
    · exact hkeep n hn
  | literal value => exact hkeep n hn
  | unary op operand => exact hkeep n hn
  | binary op lhs rhs => exact hkeep n hn
  | paren inner => exact hkeep n hn

theorem obeys_expandSiteStatement {t : SiteStatement} (h : t.Meets (D k)) :
    Obeys D k (expandSiteStatement place t) fun n t' => t'.Meets (D n) := by
  have hmono : ∀ n m (q : Parameter), n ≤ m → q.Meets (D n) False → q.Meets (D m) False := fun n m q hnm hq =>
    hD.argument (a := .parameter q) hnm hq
  have hparam : ∀ p ∈ t.slots, ∀ n, k ≤ n →
      Obeys D n (expandParameter place p) fun m q => q.Meets (D m) False := fun p hp n hn =>
    obeys_expandParameter hD hbelow p (hmono k n p hn (h p hp))
  cases t <;> rw [expandSiteStatement]
  case coordinate axis value =>
    exact (hparam value (by simp [SiteStatement.slots]) k (Nat.le_refl k)).bind fun n _ q hq =>
      .pure fun m hm => List.forall_mem_singleton.2 (hmono n m q hm hq)
  case occupancy occ =>
    obtain ⟨hvalue, hmodifiers⟩ := List.forall_mem_cons.1 hparam
    have hmodifier : ∀ a ∈ occ.modifiers, ∀ n, k ≤ n → Obeys D n
        (do return { a with value := ← expandParameter place a.value })
        fun m (b : OccModifier) => b.value.Meets (D m) False := fun a ha n hn =>
      (hmodifiers a.value (List.mem_map_of_mem ha) n hn).bind fun m _ q hq =>
        .pure fun l hl => hmono m l q hl hq
    refine (hvalue k (Nat.le_refl k)).bind fun n hn q hq => ?_
    refine (Obeys.mapM (R := fun m (b : OccModifier) => b.value.Meets (D m) False) (fun m l b => hmono m
      l b.value) fun a ha m hm => hmodifier a ha m (Nat.le_trans hn hm)).bind fun m hm ms hms => ?_
    refine .pure fun l hl => ?_
    exact List.forall_mem_cons.2 ⟨hmono n l q (Nat.le_trans hm hl) hq,
      List.forall_mem_map.2 fun b hb => hmono m l b.value hl (hms b hb)⟩
  case scalar word value =>
    exact (hparam value (by simp [SiteStatement.slots]) k (Nat.le_refl k)).bind fun n _ q hq =>
      .pure fun m hm => List.forall_mem_singleton.2 (hmono n m q hm hq)
  case adps values =>
    exact (Obeys.adps (R := fun n (q : Parameter) => q.Meets (D n) False) hmono hparam).bind
      fun n _ qs hqs => .pure fun m hm q hq => hmono n m q hm (hqs q hq)

end Places

/-! ### Items -/

section Items

variable {D : Nat → Demands} (hD : Demands.Numbered D) {k : Nat}
include hD

theorem obeys_independently (frame : Frame) {one : Item → Expansion (List Item)} {is : List Item}
    (hone : ∀ i ∈ is, ∀ n, k ≤ n → Obeys D n (one i) fun m is => AllMeet (D m) is) :
    Obeys D k (independently frame one is) fun n is => AllMeet (D n) is := by
  induction is generalizing k with
  | nil => exact .pure fun _ _ => List.forall_mem_nil _
  | cons i is ih =>
    obtain ⟨hi, his⟩ := List.forall_mem_cons.1 hone
    rw [independently_cons]
    exact obeys_append hD (hi k (Nat.le_refl k)).alone fun n hn =>
      ih fun j hj m hm => his j hj m (Nat.le_trans hn hm)

/-- All texts that there are meet the demands. -/
def FilesMeet (d : Demands) (config : Config) : Prop :=
  ∀ path text, config.resolver path = some text →
    AllMeet d (Parsed.ofText config.vocabulary text).items

theorem FilesMeet.mono {n : Nat} (h : k ≤ n) {config : Config} (hfiles : FilesMeet (D k) config) :
    FilesMeet (D n) config := fun path text htext => hD.all h (hfiles path text htext)

theorem obeys_includeFile {place : Place} (hfiles : FilesMeet (D k) place.config)
    (hbelow : ObeysBelow D place.below) (path : String) :
    Obeys D k (includeFile place path) fun n is => AllMeet (D n) is := by
  unfold includeFile
  cases hlevel : place.below with
  | none => exact Obeys.failAt _ _
  | some below =>
    refine (Obeys.ask _ path).bind fun n hn text htext => ?_
    cases text with
    | none => exact Obeys.failAt _ _
    | some text =>
      refine (Obeys.reportParsed _ _ _).bind fun m hm _ _ => Obeys.relocating ?_
      refine obeys_independently hD _ fun i hi l hl => hbelow below hlevel _ l i ?_
      exact hfiles.mono hD (Nat.le_trans hn (Nat.le_trans hm hl)) path text htext.symm i hi

theorem obeys_expandDirective {place : Place} (hfiles : FilesMeet (D k) place.config)
    (hbelow : ObeysBelow D place.below) {d : Directive} (h : d.Meets (D k)) :
    Obeys D k (expandDirective place d) fun n is => AllMeet (D n) is := by
  have hstay : ∀ n, k ≤ n → AllMeet (D n) [⟨.directive d, place.range⟩] := fun n hn =>
    .leaf (l := .directive d) trivial (hD.kind (l := .directive d) hn h) _
  have hkeep : ∀ {f : Tables → Tables} n, k ≤ n → (∀ t, (f t).uniqueCount = t.uniqueCount) →
      (∀ m, n ≤ m → ∀ t : Tables, MacrosMeet (D m) t → MacrosMeet (D m) (f t)) →
      Obeys D n (do modifyTables f; return [⟨.directive d, place.range⟩])
        fun m is => AllMeet (D m) is := fun n hn hcount hmacros =>
    (Obeys.modifyTables hcount hmacros).bind fun m hm _ _ =>
      .pure fun l hl => hstay l (Nat.le_trans hn (Nat.le_trans hm hl))
  cases d <;> rw [expandDirective]
  case includeFile path => exact obeys_includeFile hD hfiles hbelow path
  case out e =>
    exact (obeys_evaluate hD hbelow h).bind fun n _ value _ => .pure fun m _ =>
      .leaf (l := .expr (.literal (.ofNumber value))) trivial (fun _ => Literal.meets_ofNumber _ value) _
  case define name => exact hkeep k (Nat.le_refl k) (fun _ => rfl) fun _ _ _ ht => ht
  case undef name => exact hkeep k (Nat.le_refl k) (fun _ => rfl) fun _ _ _ ht => ht
  case deleteMacros names =>
    exact hkeep k (Nat.le_refl k) (fun _ => rfl) fun _ _ _ ht => ht.deleteAll names
  case prm name e =>
    exact (obeys_evaluate hD hbelow (Equation.meets_iff.1 h.2)).bind fun n hn _ _ =>
      hkeep n hn (fun _ => rfl) fun _ _ _ ht => ht
  case seed => exact .pure hstay

end Items

section Items

variable {D : Nat → Demands} {config : Config} {below : Below} {frame : Frame}

mutual

theorem obeys_expandItem (hD : Demands.Numbered D) (hbelow : ObeysBelow D below) {k : Nat}
    (hfiles : FilesMeet (D k) config) : ∀ i : Item, i.Everywhere (Item.Meets (D k)) →
      Obeys D k (expandItem config below frame i) fun n is => AllMeet (D n) is
  | ⟨kind, range⟩, h => by
    rw [expandItem]
    exact (Obeys.checkCancelled config range).bind fun n hn _ _ =>
      obeys_expandKind hD hbelow (hfiles.mono hD hn) kind
        (Item.everywhere_iff.1 (hD.everywhere hn h))

theorem obeys_expandKind (hD : Demands.Numbered D) (hbelow : ObeysBelow D below) {k : Nat}
    (hfiles : FilesMeet (D k) config) {range : Extent} : ∀ l : ItemKind, l.AllMeet (D k) →
      Obeys D k (expandKind ⟨config, below, frame, range⟩ l) fun n is => AllMeet (D n) is
  | .directive d, h => by
    rw [expandKind]
    exact obeys_expandDirective hD hfiles hbelow h.1
  | .conditional _ chain, h => by
    rw [expandKind]
    exact obeys_expandChain hD hbelow hfiles chain h.1 h.2
  | .block items, h => by
    rw [expandKind]
    exact obeys_expandItems hD hbelow hfiles items h.2
  | .expr e, h => by
    rw [expandKind]
    exact obeys_expandExprItem hD hbelow h.1
  | .bodyOp _ param, _ => by
    rw [expandKind]
    exact Obeys.failAt _ _
  | .macroDecl isList signatures body, h => by
    rw [expandKind]
    have hbody : AllMeet (D k) body := Item.allEverywhere_iff.1 h.2
    have hmeets : ∀ n, k ≤ n → ∀ s ∈ signatures, MacroMeets (D n) s.name ⟨s, body⟩ := by
      intro n hn s hs
      have hnames : ∀ m ∈ s.names, (D n).callee m := fun m hm => (hD.callee hn).2 (h.1 s hs m hm)
      exact ⟨hnames s.name List.mem_cons_self, hnames, hD.all hn hbody⟩
    refine (Obeys.modifyTables (f := (·.registerMacros signatures body)) (fun _ => rfl)
      fun n hn t ht => ht.register (hmeets n hn)).bind fun n hn _ _ => .pure fun m hm => ?_
    have hkm := Nat.le_trans hn hm
    exact List.forall_mem_singleton.2 (Item.everywhere_iff.2
      ⟨hD.kind hkm h.1, Item.allEverywhere_iff.2 (hD.all hkm hbody)⟩)
  | .declaration scope p, h => by
    rw [expandKind]
    have hparam : ∀ n, k ≤ n → Obeys D n (do return [(⟨.declaration scope (← expandParameter
        ⟨config, below, frame, range⟩ p), range⟩ : Item)]) fun m is => AllMeet (D m) is :=
      fun n hn => (obeys_expandParameter hD hbelow p (hD.argument (a := .parameter p) hn h.1)).bind
        fun m hm q hq => .pure fun l hl => .leaf (l := .declaration scope q) trivial
          (hD.argument (a := .parameter q) hl hq) _
    cases p.name with
    | none => exact hparam k (Nat.le_refl k)
    | some name =>
      exact (Obeys.modifyTables (f := (·.declare name)) (fun _ => rfl) fun _ _ _ ht => ht).bind
        fun n hn _ _ => hparam n hn
  | .existing a, h => by
    rw [expandKind]
    refine Obeys.tables_bind fun n hn _ _ => ?_
    refine .ite ?_ ?_
    · have hequation := hD.argument (a := .equation a.equation) hn h.1
      refine (obeys_expandEquation hD hbelow a.equation hequation).bind fun m hm e he => ?_
      exact .pure fun l hl => .leaf (l := .existing { a with equation := e }) trivial
        (hD.argument (a := .equation e) hl he) _
    · exact Obeys.failAt _ _
  | .site name members, h => by
    rw [expandKind]
    exact (obeys_expandItems hD hbelow hfiles members h.2).bind fun n hn ms hms => .pure fun m hm =>
      List.forall_mem_singleton.2 (Item.everywhere_iff.2
        ⟨trivial, Item.allEverywhere_iff.2 (hD.all hm hms)⟩)
  | .siteStatement s, h => by
    rw [expandKind]
    exact (obeys_expandSiteStatement hD hbelow h.1).bind fun n hn t ht => .pure fun m hm =>
      .leaf (l := .siteStatement t) trivial (hD.kind (l := .siteStatement t) hm ht) _
  | .keyword word none, _ => by
    rw [expandKind]
    exact .pure fun _ _ => .leaf (l := .keyword word none) trivial (by rintro _ ⟨⟩) _
  | .keyword word (some e), h => by
    rw [expandKind]
    exact (obeys_expandEquation hD hbelow e (h.1 e rfl)).bind fun n hn f hf => .pure fun m hm =>
      .leaf (l := .keyword word (some f)) trivial
        (by rintro _ ⟨⟩; exact hD.argument (a := .equation f) hm hf) _
  | .parameter p, h => by
    rw [expandKind]
    exact (obeys_expandParameter hD hbelow p h.1).bind fun n hn q hq => .pure fun m hm =>
      .leaf (l := .parameter q) trivial (hD.argument (a := .parameter q) hm hq) _
  | .equation e, h => by
    rw [expandKind]
    exact (obeys_expandEquation hD hbelow e h.1).bind fun n hn f hf => .pure fun m hm =>
      .leaf (l := .equation f) trivial (hD.argument (a := .equation f) hm hf) _
  | .assignment name e, h => by
    rw [expandKind]
    exact (obeys_expandEquation hD hbelow e h.1).bind fun n hn f hf => .pure fun m hm =>
      .leaf (l := .assignment name f) trivial (hD.argument (a := .equation f) hm hf) _

theorem obeys_expandChain (hD : Demands.Numbered D) (hbelow : ObeysBelow D below) {k : Nat}
    (hfiles : FilesMeet (D k) config) {range : Extent} : ∀ c : Chain, c.Meets (D k) →
      c.Everywhere (Item.Meets (D k)) →
      Obeys D k (expandChain ⟨config, below, frame, range⟩ c) fun n is => AllMeet (D n) is
  | .done, _, _ => by
    rw [expandChain]
    exact .pure fun _ _ => List.forall_mem_nil _
  | .otherwise items, _, h => by
    rw [expandChain]
    exact obeys_expandItems hD hbelow hfiles items h
  | .branch condition items rest, hcond, h => by
    rw [expandChain]
    refine (obeys_holds hD hbelow hcond.1).bind fun n hn _ _ => .ite ?_ ?_
    · exact obeys_expandItems hD hbelow (hfiles.mono hD hn) items (hD.allEverywhere hn h.1)
    · exact obeys_expandChain hD hbelow (hfiles.mono hD hn) rest (hD.conditions hn hcond.2)
        (hD.chain hn h.2)

theorem obeys_expandItems (hD : Demands.Numbered D) (hbelow : ObeysBelow D below) {k : Nat}
    (hfiles : FilesMeet (D k) config) : ∀ is : List Item, Item.AllEverywhere (Item.Meets (D k)) is →
      Obeys D k (expandItems config below frame is) fun n is => AllMeet (D n) is
  | [], _ => by
    rw [expandItems]
    exact .pure fun _ _ => List.forall_mem_nil _
  | i :: is, h => by
    rw [expandItems]
    exact obeys_append hD (obeys_expandItem hD hbelow hfiles i h.1) fun n hn =>
      obeys_expandItems hD hbelow (hfiles.mono hD hn) is (hD.allEverywhere hn h.2)

end

end Items

/-- **Expanded items meet the demands**, however deep macros and files are nested. -/
theorem obeys_itemAt {D : Nat → Demands} (hD : Demands.Numbered D) {config : Config}
    (hfiles : FilesMeet (D 0) config) (levels : Nat) (frame : Frame) (k : Nat) {i : Item}
    (hi : i.Everywhere (Item.Meets (D k))) :
    Obeys D k (itemAt config levels frame i) fun n is => AllMeet (D n) is := by
  have hfiles : ∀ k, FilesMeet (D k) config := fun k => hfiles.mono hD (Nat.zero_le k)
  induction levels generalizing frame k i with
  | zero => exact obeys_expandItem hD (by rintro _ ⟨⟩) (hfiles k) i hi
  | succ levels ih =>
    refine obeys_expandItem hD ?_ (hfiles k) i hi
    rintro one ⟨⟩ frame n j hj
    exact ih frame n hj

/-- If the items of a text meet the demands, then so does all that the text becomes. -/
theorem obeys_rootExpansion {D : Nat → Demands} (hD : Demands.Numbered D) {config : Config}
    (hfiles : FilesMeet (D 0) config) {parsed : Parsed} (hitems : AllMeet (D 0) parsed.items) :
    Obeys D 0 (Expander.rootExpansion config parsed) fun n is => AllMeet (D n) is :=
  (Obeys.reportParsed config .root parsed).bind fun _ _ _ _ =>
    obeys_independently hD .root fun i hi n _ =>
      obeys_itemAt hD hfiles _ .root n (hD.all (Nat.zero_le n) hitems i hi)

end Expansion

/-! ### Documents -/

/-- The text is the one that is expanded, or it is included. -/
def Session.Reads (s : Session) (text source : String) : Prop :=
  source = text ∨ ∃ path ∈ s.asked text, s.resolver path = some source

open Expander (rootExpansion documentOf)

/-- The demands that all texts meet are met by all that the text becomes. -/
theorem Session.parse_meets (s : Session) (text : String) {D : Nat → Demands}
    (hD : Demands.Numbered D)
    (h : ∀ source, s.Reads text source →
      Expansion.AllMeet (D 0) (Parsed.ofText s.vocabulary source).items) :
    Expansion.AllMeet (D (s.parse text).tables.uniqueCount) (s.parse text).items := by
  -- Nothing is known of texts that are not asked for: they are taken away.
  let asked : Resolver := fun path => if path ∈ s.asked text then s.resolver path else none
  have hsame : (s.withResolver asked).parse text = s.parse text :=
    s.parse_withResolver asked text fun path hpath => if_pos hpath
  rw [← hsame]
  have hfiles : Expansion.FilesMeet (D 0) (s.withResolver asked).config := by
    intro path included hpath
    by_cases hmem : path ∈ s.asked text
    · exact h included (.inr ⟨path, hmem, (if_pos hmem).symm.trans hpath⟩)
    · have hnone : asked path = none := if_neg hmem
      exact absurd (hnone.symm.trans hpath) (by simp)
  have hrun := Expansion.obeys_rootExpansion hD hfiles (h text (.inl rfl)) 0 ⟨.empty, [], [], []⟩
    (Nat.le_refl 0) ⟨rfl, MacroTable.entries_empty⟩
  cases hroot : rootExpansion (s.withResolver asked).config (Parsed.ofText s.vocabulary text)
      ⟨.empty, [], [], []⟩ with
  | ok items r =>
    rw [hroot] at hrun
    obtain ⟨n, -, ⟨hcount, -⟩, hitems⟩ := hrun
    have hdocument : (s.withResolver asked).parse text = ⟨items, r.problems, r.comments, r.tables⟩ :=
      congrArg documentOf hroot
    rw [hdocument]
    subst hcount
    exact hitems
  | error d r =>
    have hdocument : (s.withResolver asked).parse text = ⟨[], [⟨d, .root⟩], [], r.tables⟩ :=
      congrArg documentOf hroot
    rw [hdocument]
    exact List.forall_mem_nil _

end ControlFile
