import ControlFile.Proofs.Token.Coverage

/-!
# Parts of a row of tokens

What is read from some tokens of a row stands at their `Token.hull`, from the start of the first of
them to the end of the last.  `Token.Parts ts rs` says that the stretches `rs` are hulls of tokens of
the row `ts`, one behind the other, and `Token.Tiled ts rs` that no token is left out.

The tokens of a text are not empty and do not overlap (`ordered_ofText`).  So parts of a row do not
overlap either (`Parts.row`), and a token stands in exactly one part of a row that is tiled
(`Tiled.countP_eq_one`).
-/

namespace ControlFile

/-! ### Stretches one behind the other -/

/-- The stretches lie between `start` and `stop`.  None of them is empty, and each starts behind those
before it. -/
structure Extent.Row (start stop : Nat) (rs : List Extent) : Prop where
  inside : ∀ r ∈ rs, start ≤ r.start ∧ r.start < r.stop ∧ r.stop ≤ stop
  apart : rs.Pairwise fun r s => r.stop ≤ s.start

/-- The stretch `s` lies in the stretch `r`. -/
def Extent.Holds (r s : Extent) : Prop := r.start ≤ s.start ∧ s.stop ≤ r.stop

instance (r s : Extent) : Decidable (r.Holds s) :=
  inferInstanceAs (Decidable (r.start ≤ s.start ∧ s.stop ≤ r.stop))

namespace Token

/-! ### Tokens one behind the other -/

/-- No token is empty, and each starts behind those before it. -/
structure Ordered (ts : List Token) : Prop where
  nonempty : ∀ t ∈ ts, t.range.start < t.range.stop
  apart : ts.Pairwise fun t u => t.range.stop ≤ u.range.start

/-- From the start of the first token to the end of the last. -/
def hull (ts : List Token) : Extent := ⟨(ts.head?.map (·.range.start)).getD 0, endFrom 0 ts⟩

variable {ts us : List Token} {rs ss : List Extent} {t : Token}

theorem Ordered.sublist (h : Ordered ts) (hs : us.Sublist ts) : Ordered us :=
  ⟨fun t ht => h.nonempty t (hs.subset ht), h.apart.sublist hs⟩

theorem Ordered.left (h : Ordered (ts ++ us)) : Ordered ts := h.sublist (List.sublist_append_left ..)

theorem Ordered.right (h : Ordered (ts ++ us)) : Ordered us := h.sublist (List.sublist_append_right ..)

theorem hull_cons (t : Token) (ts : List Token) :
    hull (t :: ts) = ⟨t.range.start, endFrom t.range.stop ts⟩ := rfl

theorem exists_endFrom (hts : ts ≠ []) (start : Nat) : ∃ t ∈ ts, endFrom start ts = t.range.stop := by
  obtain ⟨us, t, rfl⟩ := (List.eq_nil_or_concat ts).resolve_left hts
  exact ⟨t, by simp, by simp [endFrom_eq_getLast?]⟩

theorem Ordered.hull_holds (h : Ordered ts) (ht : t ∈ ts) : (hull ts).Holds t.range := by
  obtain ⟨as, bs, rfl⟩ := List.append_of_mem ht
  constructor
  · cases as with
    | nil => exact Nat.le_refl _
    | cons a as =>
      have hapart := (List.pairwise_append.1 h.apart).2.2 a (by simp) t (by simp)
      exact Nat.le_of_lt (Nat.lt_of_lt_of_le (h.nonempty a (by simp)) hapart)
  · obtain ⟨u, hu, hend⟩ := exists_endFrom (List.cons_ne_nil t bs) (endFrom 0 as)
    change t.range.stop ≤ endFrom 0 (as ++ t :: bs)
    rw [endFrom_append, hend]
    rcases List.mem_cons.1 hu with rfl | hu
    · exact Nat.le_refl _
    · have hapart := (List.pairwise_cons.1 (List.pairwise_append.1 h.apart).2.1).1 u hu
      exact Nat.le_of_lt (Nat.lt_of_le_of_lt hapart (h.nonempty u (by simp [hu])))

theorem exists_hull (hts : ts ≠ []) :
    ∃ t ∈ ts, ∃ u ∈ ts, hull ts = ⟨t.range.start, u.range.stop⟩ := by
  obtain ⟨u, hu, hend⟩ := exists_endFrom hts 0
  obtain ⟨t, ts, rfl⟩ := List.exists_cons_of_ne_nil hts
  refine ⟨t, by simp, u, hu, ?_⟩
  rw [hull, hend]
  rfl

theorem Ordered.hull_nonempty (h : Ordered ts) (hts : ts ≠ []) :
    (hull ts).start < (hull ts).stop := by
  obtain ⟨t, ht⟩ := List.exists_mem_of_ne_nil ts hts
  have hholds := h.hull_holds ht
  exact Nat.lt_of_le_of_lt hholds.1 (Nat.lt_of_lt_of_le (h.nonempty t ht) hholds.2)

/-- What stands behind a row of tokens starts behind it. -/
theorem Ordered.hull_apart (h : Ordered (ts ++ us)) (hts : ts ≠ []) (hus : us ≠ []) :
    (hull ts).stop ≤ (hull us).start := by
  obtain ⟨_, _, t, ht, hhull⟩ := exists_hull hts
  obtain ⟨u, hu, _, _, hhull'⟩ := exists_hull hus
  rw [hhull, hhull']
  exact (List.pairwise_append.1 h.apart).2.2 t ht u hu

theorem InOrder.apart {length start : Nat} (h : InOrder length start ts) :
    ts.Pairwise fun t u => t.range.stop ≤ u.range.start := by
  induction h with
  | nil => exact .nil
  | cons _ _ hrest ih => exact List.pairwise_cons.2 ⟨fun u hu => hrest.le_start u hu, ih⟩

theorem ordered_ofText (text : String) : Ordered (ofText text) where
  nonempty := by
    rw [← ofTextAt_zero]
    exact (@covers_ofTextAt text [] text.toList rfl).nonempty
  apart := (inOrder_ofText text).apart

/-! ### Parts -/

/-- The stretches are hulls of tokens in the row, one behind the other. -/
inductive Parts : List Token → List Extent → Prop
  | nil {ts : List Token} : Parts ts []
  | cons {before part behind : List Token} {rs : List Extent} (hpart : part ≠ [])
      (hrest : Parts behind rs) : Parts (before ++ (part ++ behind)) (hull part :: rs)

/-- The row of tokens is cut into parts which stand at the stretches. -/
inductive Tiled : List Token → List Extent → Prop
  | nil : Tiled [] []
  | cons {part behind : List Token} {rs : List Extent} (hpart : part ≠ [])
      (hrest : Tiled behind rs) : Tiled (part ++ behind) (hull part :: rs)

theorem Parts.single (hts : ts ≠ []) : Parts ts [hull ts] := by
  have h : Parts ([] ++ (ts ++ [])) [hull ts] := .cons hts .nil
  rwa [List.nil_append, List.append_nil] at h

theorem Parts.behind (h : Parts ts rs) (us : List Token) : Parts (us ++ ts) rs := by
  cases h with
  | nil => exact .nil
  | cons hpart hrest =>
    rw [← List.append_assoc]
    exact .cons hpart hrest

theorem Parts.append (h : Parts ts rs) (h' : Parts us ss) : Parts (ts ++ us) (rs ++ ss) := by
  induction h with
  | nil => exact h'.behind _
  | cons hpart _ ih =>
    rw [List.append_assoc, List.append_assoc]
    exact .cons hpart ih

theorem Parts.before (h : Parts ts rs) (us : List Token) : Parts (ts ++ us) rs := by
  have happend : Parts (ts ++ us) (rs ++ []) := h.append .nil
  rwa [List.append_nil] at happend

theorem Parts.exists_hull (h : Parts ts rs) : ∀ r ∈ rs, ∃ part, part ≠ [] ∧ part <:+: ts ∧ r = hull part := by
  induction h with
  | nil => simp
  | @cons before part behind rs hpart _ ih =>
    refine List.forall_mem_cons.2 ⟨⟨part, hpart, ⟨before, behind, by simp⟩, rfl⟩, fun r hr => ?_⟩
    obtain ⟨part', hpart', hslice, rfl⟩ := ih r hr
    refine ⟨part', hpart', hslice.trans ?_, rfl⟩
    rw [← List.append_assoc]
    exact (List.suffix_append _ _).isInfix

/-- **Parts of a row are disjoint stretches of it**, in their order. -/
theorem Parts.row (h : Parts ts rs) (hts : Ordered ts) : Extent.Row (hull ts).start (hull ts).stop rs where
  inside := by
    intro r hr
    obtain ⟨part, hpart, hslice, rfl⟩ := h.exists_hull r hr
    obtain ⟨t, ht, u, hu, hhull⟩ := Token.exists_hull hpart
    have hstart := (hts.hull_holds (hslice.subset ht)).1
    have hstop := (hts.hull_holds (hslice.subset hu)).2
    have hnonempty := (hts.sublist hslice.sublist).hull_nonempty hpart
    rw [hhull] at hnonempty ⊢
    exact ⟨hstart, hnonempty, hstop⟩
  apart := by
    induction h with
    | nil => exact .nil
    | @cons before part behind rs hpart hrest ih =>
      refine List.pairwise_cons.2 ⟨fun r hr => ?_, ih hts.right.right⟩
      obtain ⟨part', hpart', hslice, rfl⟩ := hrest.exists_hull r hr
      exact (hts.right.sublist (hslice.sublist.append_left part)).hull_apart hpart hpart'

theorem Tiled.append (h : Tiled ts rs) (h' : Tiled us ss) : Tiled (ts ++ us) (rs ++ ss) := by
  induction h with
  | nil => exact h'
  | cons hpart _ ih =>
    rw [List.append_assoc]
    exact .cons hpart ih

theorem Tiled.single (hts : ts ≠ []) : Tiled ts [hull ts] := by
  have h : Tiled (ts ++ []) [hull ts] := .cons hts .nil
  rwa [List.append_nil] at h

theorem Tiled.parts (h : Tiled ts rs) : Parts ts rs := by
  induction h with
  | nil => exact .nil
  | @cons part behind rs hpart _ ih => exact @Parts.cons [] part behind rs hpart ih

/-- **No token is left out, and none stands in two parts.** -/
theorem Tiled.countP_eq_one (h : Tiled ts rs) (hts : Ordered ts) :
    ∀ t ∈ ts, rs.countP (fun r => r.Holds t.range) = 1 := by
  induction h with
  | nil => simp
  | @cons part behind rs hpart hrest ih =>
    intro t ht
    rw [List.countP_cons]
    rcases List.mem_append.1 ht with htpart | htbehind
    · -- The token stands in this part, and the parts behind start where it has ended.
      have hnone : rs.countP (fun r => r.Holds t.range) = 0 := by
        refine List.countP_eq_zero.2 fun r hr => ?_
        obtain ⟨part', hpart', hslice, rfl⟩ := hrest.parts.exists_hull r hr
        have hapart := (hts.sublist (hslice.sublist.append_left part)).hull_apart hpart hpart'
        have hstop := (hts.left.hull_holds htpart).2
        have hnonempty := hts.nonempty t ht
        rw [decide_eq_true_eq]
        rintro ⟨hholds, -⟩
        omega
      rw [hnone, if_pos (by simpa using hts.left.hull_holds htpart)]
    · rw [ih hts.right t htbehind, if_neg ?_]
      have hapart := hts.hull_apart hpart (List.ne_nil_of_mem htbehind)
      have hstart := (hts.right.hull_holds htbehind).1
      have hnonempty := hts.nonempty t ht
      rw [decide_eq_true_eq]
      rintro ⟨-, hholds⟩
      omega

/-! ### What is read from a row -/

/-- What is read from the tokens has its parts at the stretches, and `P` holds of it if the tokens stand
one behind the other. -/
structure Lays (ts : List Token) (rs : List Extent) (P : Prop) : Prop where
  parts : Parts ts rs
  placed : Ordered ts → P

namespace Lays

variable {P Q : Prop}

theorem nil (ts : List Token) (h : P) : Lays ts [] P := ⟨.nil, fun _ => h⟩

theorem imp (h : Lays ts rs P) (hPQ : P → Q) : Lays ts rs Q := ⟨h.parts, fun hts => hPQ (h.placed hts)⟩

theorem append (h : Lays ts rs P) (h' : Lays us ss Q) : Lays (ts ++ us) (rs ++ ss) (P ∧ Q) :=
  ⟨h.parts.append h'.parts, fun hts => ⟨h.placed hts.left, h'.placed hts.right⟩⟩

theorem behind (h : Lays ts rs P) (us : List Token) : Lays (us ++ ts) rs P :=
  ⟨h.parts.behind us, fun hts => h.placed hts.right⟩

theorem before (h : Lays ts rs P) (us : List Token) : Lays (ts ++ us) rs P :=
  ⟨h.parts.before us, fun hts => h.placed hts.left⟩

/-- What stands at all of the tokens has its parts there. -/
theorem whole (h : Lays ts rs P) (hts : ts ≠ []) :
    Lays ts [hull ts] (Extent.Row (hull ts).start (hull ts).stop rs ∧ P) :=
  ⟨.single hts, fun hordered => ⟨h.parts.row hordered, h.placed hordered⟩⟩

end Lays

end Token

end ControlFile
