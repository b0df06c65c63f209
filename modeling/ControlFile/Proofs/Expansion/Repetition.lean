import ControlFile.Proofs.Expansion.Growth
import ControlFile.Proofs.Expansion.Settled
import ControlFile.Proofs.Macro.Bodies

/-!
# Repeating an expansion

`Repeats config t e e' Q`: if the step `e` succeeds from tables that agree with `t`, finds nothing
wrong and reads no text with the unique mark, then so does `e'`, and `Q` holds of both results and of
the tables that both end with.  Tables agree if they differ in the number of unique names only.

Each function of the expansion repeats, with as many levels below it or more, in any text and at any
place.  Items are repeated by their twins, and they are settled by the run (`Emits`).  So what has
been evaluated once can be evaluated again, which is what a settled `#prm` needs.
-/

namespace ControlFile

/-- The unique mark is not among the tokens of the text. -/
def LacksUniqueMark (text : String) : Prop :=
  ∀ t ∈ Token.ofText text, t.kind ≠ .directive .unique

/-! ### Unmarked macros -/

namespace MacroTable

variable {m : MacroTable}

/-- The bodies of all macros are unmarked. -/
def Unmarked (m : MacroTable) : Prop :=
  ∀ name entry, m.get? name = some entry → ∀ i ∈ entry.body, i.Everywhere Item.Unmarked

theorem unmarked_empty : empty.Unmarked := bodies_empty

theorem Unmarked.register (h : m.Unmarked) (signatures : List Signature) {body : List Item}
    (hbody : ∀ i ∈ body, i.Everywhere Item.Unmarked) : (m.register signatures body).Unmarked :=
  Bodies.register h signatures hbody

theorem Unmarked.deleteAll (h : m.Unmarked) (names : List String) :
    (names.foldl MacroTable.delete m).Unmarked := Bodies.deleteAll h names

end MacroTable

/-- Nothing has been found to be wrong, and no text that was asked for has the unique mark. -/
structure Run.Quiet (config : Config) (r : Run) : Prop where
  problems : r.problems = []
  unmarked : ∀ path ∈ r.asked, ∀ text, config.resolver path = some text → LacksUniqueMark text

/-- A run that ends quietly has been quiet before. -/
theorem Run.Quiet.of_extends {config : Config} {good : Problem → Prop} {r r' : Run}
    (h : r'.Quiet config) (hextends : r.Extends good r') : r.Quiet config := by
  obtain ⟨ps, hps, -⟩ := hextends.problems
  rw [h.problems] at hps
  exact ⟨(List.append_eq_nil_iff.1 hps.symm).1,
    fun path hpath => h.unmarked path (hextends.asked.subset hpath)⟩

namespace Expansion

open Expander (belowAt itemAt_eq)

variable {α β : Type} {config : Config} {t t' : Tables}

/-- A step takes back no problem and no path that was asked for. -/
abbrev Grows (e : Expansion α) : Prop := Yields (fun _ => True) (fun _ => True) e

theorem Yields.extends_of_ok {good : Problem → Prop} {P : Extent → Prop} {e : Expansion α}
    (h : Yields good P e) {a : α} {r r' : Run} (hrun : e r = .ok a r') : r.Extends good r' := by
  have he := h r
  rwa [hrun] at he

/-- What succeeds quietly with `e` succeeds with `e'` as well, and `Q` holds of both results and of
the tables behind them. -/
def Repeats (config : Config) (t : Tables) (e e' : Expansion α) (Q : α → α → Tables → Prop) : Prop :=
  ∀ r r' a r₁, r.tables.Agree t → r'.tables.Agree t → e r = .ok a r₁ → r₁.Quiet config →
    ∃ a' t', r₁.tables.Agree t' ∧ Gives e' r' a' t' ∧ Q a a' t'

/-- Both steps give the same result, of which `N` holds, and leave the tables as they were. -/
abbrev Same (config : Config) (t : Tables) (e e' : Expansion α) (N : α → Prop) : Prop :=
  Repeats config t e e' fun a a' t' => a' = a ∧ t' = t ∧ N a

namespace Repeats

variable {e e' : Expansion α} {f f' : α → Expansion β} {Q : α → α → Tables → Prop}
  {R : β → β → Tables → Prop} {N : α → Prop}

theorem pure {a a' : α} (h : Q a a' t) : Repeats config t (Pure.pure a) (Pure.pure a') Q := by
  rintro r r' _ _ hr hr' ⟨⟩ -
  exact ⟨a', t, hr, .pure _ hr', h⟩

theorem failAt {range : Extent} {fault : Fault} :
    Repeats config t (Expansion.failAt range fault) e' Q := by
  rintro r r' a r₁ - - ⟨⟩

theorem bind (h : Repeats config t e e' Q) (hgrows : ∀ a, Grows (f a))
    (hf : ∀ a a' t', Q a a' t' → Repeats config t' (f a) (f' a') R) :
    Repeats config t (e >>= f) (e' >>= f') R := by
  intro r r' b r₂ hr hr' hrun hquiet
  obtain ⟨a, r₁, he, hnext⟩ := exists_of_bind_ok hrun
  obtain ⟨a', t', hagree, ⟨r₁', he', hagree', hproblems⟩, hq⟩ :=
    h r r' a r₁ hr hr' he (hquiet.of_extends ((hgrows a).extends_of_ok hnext))
  obtain ⟨b', t'', hend, hgives, hr⟩ := hf a a' t' hq r₁ r₁' b r₂ hagree hagree' hnext hquiet
  obtain ⟨r₂', hnext', hagree'', hproblems'⟩ := hgives
  exact ⟨b', t'', hend, ⟨r₂', (bind_of_ok he').trans hnext', hagree'', hproblems'.trans hproblems⟩,
    hr⟩

theorem map {g g' : α → β} (h : Repeats config t e e' Q)
    (hg : ∀ a a' t', Q a a' t' → R (g a) (g' a') t') :
    Repeats config t (e >>= fun a => Pure.pure (g a)) (e' >>= fun a => Pure.pure (g' a)) R :=
  h.bind (fun _ => .pure _) fun a a' t' hq => .pure (hg a a' t' hq)

theorem same_bind (h : Same config t e e' N) (hgrows : ∀ a, Grows (f a))
    (hf : ∀ a, N a → Repeats config t (f a) (f' a) R) :
    Repeats config t (e >>= f) (e' >>= f') R := by
  refine h.bind hgrows ?_
  rintro _ a _ ⟨rfl, rfl, ha⟩
  exact hf a ha

theorem same_map {g : α → β} {M : β → Prop} (h : Same config t e e' N)
    (hg : ∀ a, N a → M (g a)) :
    Same config t (e >>= fun a => Pure.pure (g a)) (e' >>= fun a => Pure.pure (g a)) M :=
  h.same_bind (fun _ => .pure _) fun a ha => .pure ⟨rfl, rfl, hg a ha⟩

theorem ite {c : Prop} [Decidable c] {e₁ e₁' : Expansion α} (h : c → Repeats config t e e' Q)
    (h₁ : ¬c → Repeats config t e₁ e₁' Q) :
    Repeats config t (if c then e else e₁) (if c then e' else e₁') Q := by
  by_cases hc : c
  · rw [if_pos hc, if_pos hc]
    exact h hc
  · rw [if_neg hc, if_neg hc]
    exact h₁ hc

/-- The tables that are looked at may differ in the number of unique names. -/
theorem tables_bind {f f' : Tables → Expansion β}
    (h : ∀ u u', u.Agree t → u'.Agree t → Repeats config t (f u) (f' u') R) :
    Repeats config t (tables >>= f) (tables >>= f') R :=
  fun r r' b r₁ hr hr' hrun hquiet => h r.tables r'.tables hr hr' r r' b r₁ hr hr' hrun hquiet

theorem modifyTables_bind {g : Tables → Tables} {f f' : Unit → Expansion β}
    (hg : ∀ {u}, u.Agree t → (g u).Agree (g t)) (h : Repeats config (g t) (f ()) (f' ()) R) :
    Repeats config t (modifyTables g >>= f) (modifyTables g >>= f') R :=
  fun r r' b r₁ hr hr' hrun hquiet =>
    h { r with tables := g r.tables } { r' with tables := g r'.tables } b r₁ (hg hr) (hg hr') hrun
      hquiet

theorem nextUnique_bind {f f' : String → Expansion β}
    (h : ∀ u u', Repeats config t (f u) (f' u') R) :
    Repeats config t (nextUnique >>= f) (nextUnique >>= f') R :=
  fun r r' b r₁ hr hr' hrun hquiet =>
    h _ _ { r with tables := r.tables.nextUnique.2 } { r' with tables := r'.tables.nextUnique.2 } b
      r₁ hr hr' hrun hquiet

/-- What is asked for has no unique mark, if it is a text. -/
theorem ask_bind {path : String} {f f' : Option String → Expansion β}
    (hgrows : Grows (f (config.resolver path)))
    (h : (∀ text, config.resolver path = some text → LacksUniqueMark text) →
      Repeats config t (f (config.resolver path)) (f' (config.resolver path)) R) :
    Repeats config t (ask config path >>= f) (ask config path >>= f') R := by
  intro r r' b r₁ hr hr' hrun hquiet
  have hextends := hgrows.extends_of_ok (r := { r with asked := path :: r.asked }) hrun
  have hpath : path ∈ r₁.asked := hextends.asked.subset List.mem_cons_self
  exact h (hquiet.unmarked path hpath) { r with asked := path :: r.asked }
    { r' with asked := path :: r'.asked } b r₁ hr hr' hrun hquiet

/-- A text with problems of its own does not end quietly. -/
theorem reportParsed_bind {frame frame' : Frame} {parsed : Parsed} {f f' : Unit → Expansion β}
    (hgrows : Grows (f ())) (h : Repeats config t (f ()) (f' ()) R) :
    Repeats config t (reportParsed config frame parsed >>= f)
      (reportParsed config frame' parsed >>= f') R := by
  refine .bind (Q := fun _ _ t' => t' = t) ?_ (fun _ => hgrows) ?_
  · rintro r r' _ r₁ hr hr' ⟨⟩ hquiet
    have hnone : parsed.diagnostics = [] := by simpa using (List.append_eq_nil_iff.1 hquiet.problems).2
    exact ⟨_, t, hr, ⟨_, rfl, hr', by simp [hnone]⟩, rfl⟩
  · rintro _ _ _ rfl
    exact h

theorem relocating {range range' : Extent} (h : Repeats config t e e' Q) :
    Repeats config t (relocating range e) (relocating range' e') Q := by
  intro r r' a r₁ hr hr' hrun hquiet
  have he : e r = .ok a r₁ := by
    unfold Expansion.relocating at hrun
    cases hrun' : e r with
    | ok b r₂ => rw [← hrun]; simp [hrun']
    | error d r₂ => simp [hrun'] at hrun
  obtain ⟨a', t', hagree, ⟨r₁', he', hagree', hproblems⟩, hq⟩ := h r r' a r₁ hr hr' he hquiet
  refine ⟨a', t', hagree, ⟨r₁', ?_, hagree', hproblems⟩, hq⟩
  unfold Expansion.relocating
  rw [he']

theorem checkCancelled_bind (hwatch : config.watch = .never) {range range' : Extent}
    {f f' : Unit → Expansion β} (h : Repeats config t (f ()) (f' ()) R) :
    Repeats config t (checkCancelled config range >>= f) (checkCancelled config range' >>= f') R := by
  intro r r' b r₁ hr hr' hrun hquiet
  rw [bind_of_ok (checkCancelled_eq hwatch range r)] at hrun
  obtain ⟨b', t', hagree, ⟨r₁', hrun', hagree', hproblems⟩, hr⟩ := h r r' b r₁ hr hr' hrun hquiet
  exact ⟨b', t', hagree,
    ⟨r₁', (bind_of_ok (checkCancelled_eq hwatch range' r')).trans hrun', hagree', hproblems⟩, hr⟩

theorem mapM {f f' : α → Expansion β} {M : β → Prop} {as : List α} (hgrows : ∀ a, Grows (f a))
    (h : ∀ a ∈ as, Same config t (f a) (f' a) M) :
    Same config t (as.mapM f) (as.mapM f') fun bs => ∀ b ∈ bs, M b := by
  induction as with
  | nil => exact .pure ⟨rfl, rfl, by simp⟩
  | cons a as ih =>
    rw [List.mapM_cons, List.mapM_cons]
    refine .same_bind (h a (by simp)) (fun _ => .bind (.mapM hgrows as) fun _ => .pure _) fun b hb => ?_
    refine .same_map (ih fun c hc => h c (List.mem_cons_of_mem _ hc)) fun bs hbs => ?_
    exact List.forall_mem_cons.2 ⟨hb, hbs⟩

theorem adps {f f' : α → Expansion β} {M : β → Prop} (hgrows : ∀ a, Grows (f a))
    (h : ∀ a, Same config t (f a) (f' a) M) (as : Adps α) :
    Same config t (as.mapM f) (as.mapM f') fun bs => ∀ b ∈ bs.toList, M b := by
  -- Of the steps that follow each of the six, only that they grow is asked.
  have hnext : ∀ {γ : Type} {g : β → Expansion γ} (a : α), (∀ b, Grows (g b)) → Grows (f a >>= g) :=
    fun a hg => .bind (hgrows a) hg
  refine .same_bind (h as.u11) (fun _ => hnext as.u22 fun _ => hnext as.u33 fun _ =>
    hnext as.u12 fun _ => hnext as.u13 fun _ => hnext as.u23 fun _ => .pure _) fun b₁₁ h₁₁ => ?_
  refine .same_bind (h as.u22) (fun _ => hnext as.u33 fun _ => hnext as.u12 fun _ =>
    hnext as.u13 fun _ => hnext as.u23 fun _ => .pure _) fun b₂₂ h₂₂ => ?_
  refine .same_bind (h as.u33) (fun _ => hnext as.u12 fun _ => hnext as.u13 fun _ =>
    hnext as.u23 fun _ => .pure _) fun b₃₃ h₃₃ => ?_
  refine .same_bind (h as.u12) (fun _ => hnext as.u13 fun _ => hnext as.u23 fun _ => .pure _)
    fun b₁₂ h₁₂ => ?_
  refine .same_bind (h as.u13) (fun _ => hnext as.u23 fun _ => .pure _) fun b₁₃ h₁₃ => ?_
  refine .same_map (h as.u23) fun b₂₃ h₂₃ => ?_
  simp [Adps.toList, h₁₁, h₂₂, h₃₃, h₁₂, h₁₃, h₂₃]

end Repeats

end Expansion

end ControlFile
