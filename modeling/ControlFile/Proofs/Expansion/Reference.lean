import ControlFile.Proofs.Expansion.Branches
import ControlFile.Proofs.Macro.Names

/-!
# Arguments by reference that are not read

An argument by reference is not expanded before the body of the macro uses it.  So if its parameter has no
name, or one that the body does not look up, any other argument may stand in its place: the call gives the
same items or the same fault and ends in the same run (`callWith_eq_of_unread`).  What the argument calls and
whether it makes sense do not matter.

Two calls with different arguments are compared by the bindings that they go on with.  All that is done with
bindings is to look up the names of the body, so bindings that agree on these may stand for each other
(`Bindings.AgreeOn`).
-/

namespace ControlFile

/-- The names `ns` are bound to the same arguments. -/
def Bindings.AgreeOn (ns : List String) (bound bound' : Bindings) : Prop :=
  ∀ n ∈ ns, bound.get? n = bound'.get? n

namespace Bindings.AgreeOn

variable {ns : List String} {bound bound' : Bindings}

theorem refl (ns : List String) (bound : Bindings) : AgreeOn ns bound bound := fun _ _ => rfl

theorem substitution (h : AgreeOn ns bound bound') (unique : String) :
    Substitution.AgreeOn ⟨bound, unique⟩ ⟨bound', unique⟩ ns := ⟨rfl, h⟩

/-- One more parameter is bound to the same argument. -/
theorem bindParam (h : AgreeOn ns bound bound') (p : MacroParam) (a : Argument) :
    AgreeOn ns (Expansion.bindParam p a bound) (Expansion.bindParam p a bound') := by
  unfold Expansion.bindParam
  cases p.name with
  | none => exact h
  | some n =>
    intro x hx
    rw [Assoc.get?_cons, Assoc.get?_cons, h x hx]

/-- One more parameter is bound, and its name is not among the names. -/
theorem bindParam_unread (h : AgreeOn ns bound bound') {p : MacroParam} (hunread : ∀ n ∈ p.name, n ∉ ns)
    (a a' : Argument) : AgreeOn ns (Expansion.bindParam p a bound) (Expansion.bindParam p a' bound') := by
  unfold Expansion.bindParam
  cases hname : p.name with
  | none => exact h
  | some n =>
    intro x hx
    have hne : n ≠ x := fun heq => hunread n hname (heq ▸ hx)
    rw [Assoc.get?_cons, Assoc.get?_cons, if_neg hne, if_neg hne, h x hx]

theorem bindHoles (h : AgreeOn ns bound bound') (params : List MacroParam) :
    AgreeOn ns (Expansion.bindHoles params bound) (Expansion.bindHoles params bound') := by
  induction params generalizing bound bound' with
  | nil => exact h
  | cons p ps ih => exact ih (h.bindParam p .hole)

end Bindings.AgreeOn

namespace Expansion

open Expander (belowAt)

/-! ### Binding arguments -/

/-- What a parameter is bound to. -/
def passed (place : Place) (byReference : Bool) (a : Argument) : Expansion Argument :=
  if byReference then pure a else expandArgument place a

theorem bindArguments_cons (place : Place) (byReference : Bool) (p : MacroParam) (ps : List MacroParam)
    (bound : Bindings) (a : Argument) (as : List Argument) :
    bindArguments place byReference (p :: ps) bound (a :: as) =
      passed place (byReference || p.byReference) a >>= fun b =>
        bindArguments place byReference ps (bindParam p b bound) as := by
  rw [bindArguments, passed]
  cases byReference || p.byReference <;> rfl

section Binding

variable {place : Place} {byReference : Bool} {α : Type} {ns : List String}
  {k : Bindings → Expansion α}

/-- The same arguments are bound on top of bindings that agree. -/
theorem bindArguments_bind_congr (hk : ∀ bound bound', Bindings.AgreeOn ns bound bound' → k bound = k bound')
    (as : List Argument) (params : List MacroParam) {bound bound' : Bindings}
    (h : Bindings.AgreeOn ns bound bound') :
    (bindArguments place byReference params bound as >>= k) =
      (bindArguments place byReference params bound' as >>= k) := by
  induction as generalizing params bound bound' with
  | nil =>
    rw [bindArguments, bindArguments, pure_bind, pure_bind]
    exact hk _ _ (h.bindHoles params)
  | cons a as ih =>
    cases params with
    | nil =>
      rw [bindArguments, bindArguments, pure_bind, pure_bind]
      exact hk _ _ h
    | cons p ps =>
      rw [bindArguments_cons, bindArguments_cons, bind_assoc, bind_assoc]
      exact congrArg _ (funext fun b => ih ps (h.bindParam p b))

/-- Arguments that differ at one place, where the parameter is by reference and not among the names. -/
theorem bindArguments_bind_eq (hk : ∀ bound bound', Bindings.AgreeOn ns bound bound' → k bound = k bound')
    {i : Nat} {params : List MacroParam} {as as' : List Argument} (hlength : as.length = as'.length)
    (hsame : ∀ j, j ≠ i → as[j]? = as'[j]?)
    (hparam : ∀ p, params[i]? = some p → (byReference || p.byReference) = true ∧ ∀ n ∈ p.name, n ∉ ns)
    (bound : Bindings) :
    (bindArguments place byReference params bound as >>= k) =
      (bindArguments place byReference params bound as' >>= k) := by
  induction i generalizing params as as' bound with
  | zero =>
    match as, as', params with
    | [], [], _ | _ :: _, _ :: _, [] => rfl
    | a :: as, a' :: bs, p :: ps =>
      obtain ⟨hreference, hunread⟩ := hparam p rfl
      obtain rfl : as = bs := List.ext_getElem? fun j => hsame (j + 1) (Nat.succ_ne_zero j)
      have hbound := (Bindings.AgreeOn.refl ns bound).bindParam_unread hunread a a'
      rw [bindArguments_cons, bindArguments_cons, hreference, passed, passed, if_pos rfl, if_pos rfl,
        pure_bind, pure_bind]
      exact bindArguments_bind_congr hk as ps hbound
  | succ i ih =>
    match as, as', params with
    | [], [], _ | _ :: _, _ :: _, [] => rfl
    | a :: as, a' :: bs, p :: ps =>
      obtain rfl : a = a' := Option.some.inj (hsame 0 (Nat.succ_ne_zero i).symm)
      have hrest : ∀ j, j ≠ i → as[j]? = bs[j]? := fun j hj => hsame (j + 1) fun heq => hj (Nat.succ.inj heq)
      rw [bindArguments_cons, bindArguments_cons, bind_assoc, bind_assoc]
      exact congrArg _ (funext fun b => ih (Nat.succ.inj hlength) hrest hparam _)

end Binding

/-! ### Bodies -/

theorem substitute_congr {s s' : Substitution} {item : Item} (h : s.AgreeOn s' item.names) (range : Extent) :
    substitute s range item = substitute s' range item := by
  funext r
  rw [substitute, substitute, item.substitute_congr h]

/-- **A body looks up its names only.** -/
theorem expandBody_congr {s s' : Substitution} {is : List Item} (h : s.AgreeOn s' (Item.namesAll is))
    (range : Extent) (one : Item → Expansion (List Item)) :
    expandBody s range one is = expandBody s' range one is := by
  induction is with
  | nil => rfl
  | cons i is ih =>
    rw [Item.namesAll] at h
    rw [expandBody, expandBody, substitute_congr h.left range, ih h.right]

/-! ### Calls -/

/-- **An argument by reference that is not read has no influence.**  Where the parameter `i` of the macro is
by reference and its name is not looked up in the body, calls whose arguments differ in the argument `i`
only are the same, from every run and at every place. -/
theorem callWith_eq_of_unread (place : Place) {name : String} {entry : MacroEntry} {r : Run} {i : Nat}
    (as as' : List Argument) (hentry : r.tables.macros.get? name = some entry)
    (hreference : entry.signature.isByReference i = true)
    (hunread : ∀ p, entry.signature.params[i]? = some p → ∀ n ∈ p.name, n ∉ Item.namesAll entry.body)
    (hlength : as.length = as'.length) (hsame : ∀ j, j ≠ i → as[j]? = as'[j]?) :
    callWith place name as.length
        (fun signature => bindArguments place signature.byReference signature.params [] as) r =
      callWith place name as'.length
        (fun signature => bindArguments place signature.byReference signature.params [] as') r := by
  have hparam : ∀ p, entry.signature.params[i]? = some p →
      (entry.signature.byReference || p.byReference) = true ∧
        ∀ n ∈ p.name, n ∉ Item.namesAll entry.body := by
    intro p hp
    refine ⟨?_, hunread p hp⟩
    rwa [Signature.isByReference, hp] at hreference
  rw [callWith_eq _ _ _ hentry, callWith_eq _ _ _ hentry, hlength]
  refine congrFun ?_ r
  unfold callEntry
  refine ite_congr rfl (fun _ => rfl) fun _ => ?_
  cases place.below with
  | none => rfl
  | some below =>
    refine bindArguments_bind_eq (fun bound bound' h => ?_) hlength hsame hparam []
    have hbody : ∀ unique range one, expandBody ⟨bound, unique⟩ range one entry.body =
        expandBody ⟨bound', unique⟩ range one entry.body :=
      fun unique => expandBody_congr (h.substitution unique)
    simp only [hbody]

/-- `macro m(&a, b) { = b; }`, which does not read `a`. -/
def readsSecond : MacroEntry :=
  ⟨⟨"m", false, [⟨some "a", true⟩, ⟨some "b", false⟩], true, ⟨6, 14⟩⟩,
    [⟨.equation ⟨.set, .ident "b", none⟩, ⟨17, 21⟩⟩]⟩

/-- Where `m` is declared. -/
def readsSecondRun : Run := ⟨⟨⟨[("m", readsSecond)], []⟩, [], [], [], 0⟩, [], [], []⟩

/-- A call of `m` with too few arguments, which could not be expanded, and a place that is left empty. -/
theorem callWith_eq_of_unread_recursive :
    let place : Place := ⟨Session.standard.config, belowAt Session.standard.config 1, .root, ⟨24, 34⟩⟩
    let one : Argument := .expr (.literal (.integer 1))
    let broken : Argument := .expr (.call "m" [] ⟨26, 29⟩)
    readsSecondRun.tables.macros.get? "m" = some readsSecond ∧ readsSecond.signature.isByReference 0 = true ∧
      callWith place "m" 2
          (fun signature => bindArguments place signature.byReference signature.params [] [broken, one])
          readsSecondRun =
        callWith place "m" 2
          (fun signature => bindArguments place signature.byReference signature.params [] [.hole, one])
          readsSecondRun ∧
      ∃ r, callWith place "m" 2
          (fun signature => bindArguments place signature.byReference signature.params [] [broken, one])
          readsSecondRun = .ok [⟨.equation ⟨.set, .literal (.integer 1), none⟩, ⟨24, 34⟩⟩] r := by
  intro place one broken
  have hunread : ∀ p, readsSecond.signature.params[0]? = some p →
      ∀ n ∈ p.name, n ∉ Item.namesAll readsSecond.body := by
    rintro _ ⟨⟩ _ ⟨⟩
    decide
  have hsame : ∀ j, j ≠ 0 → [broken, one][j]? = [Argument.hole, one][j]? := by
    rintro (_ | j) hj
    · exact absurd rfl hj
    · rfl
  exact ⟨rfl, rfl, callWith_eq_of_unread place [broken, one] [.hole, one] rfl rfl hunread rfl hsame, _, rfl⟩

end Expansion

end ControlFile
