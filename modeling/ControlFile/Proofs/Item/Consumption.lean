import ControlFile.Proofs.Item.Confined
import ControlFile.Proofs.Item.Scan

/-!
# What the parsers of items consume

Each of them keeps four things (`Sound`): all items, at any depth, are stretches of the text; without
a marked token there is no marked item; what is read without a report has accepted conditionals; and
outside the body of a macro it is `Confined`.
The parsers of one level are treated for any parser of the next level that does so, and
`scans_item` is the induction over the levels.
-/

namespace ControlFile

/-- The item is a stretch of a text of `L` bytes. -/
def Item.Inside (L : Nat) (i : Item) : Prop := i.range.Inside L

namespace ItemParser

variable {α : Type} {L : Nat} {r : Reading}

/-- What is read satisfies `A`, and `B` if no token is marked.  If nothing has been reported, the
conditionals are accepted, and `C` holds of the tokens and of what is read. -/
structure Sound (A B : α → Prop) (C : List Token → α → Prop) (ts : List Token)
    (ds : List Diagnostic) (a : α) (r' : Reading) : Prop where
  placed : A a
  unmarked : (∀ t ∈ ts, t.IsUnmarked) → B a
  accepted : ds = [] → Accepts ts r'.cursor
  confined : ds = [] → C ts a

variable {A B : α → Prop} {C C' : List Token → α → Prop} {ts us : List Token}
  {ds : List Diagnostic} {a : α} {r' : Reading}

/-- What stands before it and has no words of conditionals does not matter. -/
theorem Sound.behind (h : Sound A B C us ds a r') (ts : List Token) (hts : chainWords ts = [])
    (hC : C us a → C' (ts ++ us) a) : Sound A B C' (ts ++ us) ds a r' where
  placed := h.placed
  unmarked hu := h.unmarked fun t ht => hu t (List.mem_append_right _ ht)
  accepted hds := (h.accepted hds).congr (by rw [chainWords_append, hts, List.nil_append])
  confined hds := hC (h.confined hds)

/-- Something has been consumed if there is a result, and without a report there is one. -/
structure SoundOption (A B : α → Prop) (C : List Token → α → Prop) (ts : List Token)
    (ds : List Diagnostic) (o : Option α) (r' : Reading) : Prop extends
    Sound (fun o => ∀ a ∈ o, A a) (fun o => ∀ a ∈ o, B a) (fun ts o => ∃ a ∈ o, C ts a)
      ts ds o r' where
  consumed : ds = [] ∨ o.isSome = true → ts ≠ []

/-- What is read of an item.  `free` says that it may stand in the body of a macro. -/
abbrev SoundItem (L : Nat) (free : Bool) :=
  SoundOption (Item.Everywhere (Item.Inside L)) (Item.Everywhere Item.Unmarked)
    fun ts i => free = false → Confined ts i.surface

abbrev SoundItems (L : Nat) (free : Bool) :=
  Sound (fun is : List Item => ∀ i ∈ is, i.Everywhere (Item.Inside L))
    (fun is : List Item => ∀ i ∈ is, i.Everywhere Item.Unmarked)
    fun ts is => free = false → Confined ts (Item.surfaceAll is)

/-- What is read of an item without its place. -/
abbrev SoundKind (L : Nat) (free : Bool) :=
  Sound (ItemKind.Everywhere (Item.Inside L))
    (fun k : ItemKind => k.Unmarked ∧ k.Everywhere Item.Unmarked)
    fun ts k => free = false → ConfinedKind ts k

abbrev SoundKind? (L : Nat) (free : Bool) :=
  SoundOption (ItemKind.Everywhere (Item.Inside L))
    (fun k : ItemKind => k.Unmarked ∧ k.Everywhere Item.Unmarked)
    fun ts k => free = false → ConfinedKind ts k

namespace SoundOption

theorem some (h : Sound A B C ts ds a r') (hts : ts ≠ []) :
    SoundOption A B C ts ds (some a) r' where
  placed := by simpa using h.placed
  unmarked := by simpa using h.unmarked
  accepted := h.accepted
  confined hds := ⟨a, rfl, h.confined hds⟩
  consumed _ := hts

theorem imp {o : Option α} (h : SoundOption A B C ts ds o r') (hC : ∀ a, C ts a → C' ts a) :
    SoundOption A B C' ts ds o r' where
  placed := h.placed
  unmarked := h.unmarked
  accepted := h.accepted
  confined hds := (h.confined hds).imp fun a ha => ⟨ha.1, hC a ha.2⟩
  consumed := h.consumed

/-- There may be no result if there is a report. -/
theorem none (h : ds ≠ []) : SoundOption A B C ts ds none r' where
  placed := by simp
  unmarked := by simp
  accepted hds := absurd hds h
  confined hds := absurd hds h
  consumed hds := by simp [h] at hds

end SoundOption

/-! ### Statements -/

/-- A statement that starts with the token `t`. -/
theorem scans_simple {free : Bool} {p : Parser α} {F : α → Prop} {k : α → ItemKind}
    {t : Token} {rest : List Token} (hrest : r.cursor.rest = t :: rest)
    (hstart : free = false → t.kind.isMacroScoped = false)
    (h : Parser.Reads L p r.cursor (Parser.Plain 1 F)) (hk : ∀ a, F a → (k a).Unmarked)
    (hs : Parser.Ensures p r.cursor fun a _ => (k a).IsSimple) :
    Scans L (do return some (k (← p)) : ItemParser (Option ItemKind)) r (SoundKind? L free) := by
  have hread : Parser.Reads L p r.cursor fun ts a => Parser.Plain 1 F ts a ∧ (k a).IsSimple := by
    intro hc
    have hp := h hc
    cases hrun : p r.cursor with
    | error d c' =>
      rw [hrun] at hp
      exact hp
    | ok a c' =>
      rw [hrun] at hp
      obtain ⟨ts, hts, hplain⟩ := hp
      exact ⟨ts, hts, hplain, hs a c' hrun⟩
  refine .lift_bind hread fun a r' us hmoves ha => .pure ?_
  obtain ⟨hplain, hsimple⟩ := ha
  rw [List.append_nil]
  have hus : us ≠ [] := List.ne_nil_of_length_pos hplain.length
  refine .some ⟨hsimple _, fun hts => ?_, fun _ => .of_plain hplain.words _, fun _ hfree => ?_⟩ hus
  · exact ⟨hk a (hplain.unmarked hts), hsimple _⟩
  · refine .of_inner (fun s hs => ?_) ?_
    · rw [hmoves.cursor.head?_eq hrest hus] at hs
      cases hs
      exact hstart hfree
    · rw [hsimple.inner_eq_nil]
      exact .of_not_confined hplain.not_confined

/-! ### Sequences -/

theorem exists_moves_recover (c : Cursor) : ∃ ts, c.Moves ts c.recover := by
  unfold Cursor.recover
  dsimp only
  split
  · obtain ⟨ts, hts⟩ := Cursor.Moves.exists_advance (c.skipWhile fun t =>
      t.kind != .mark .semicolon && t.kind != .mark .closeBrace && !t.kind.closesBranch)
    exact ⟨_, (Cursor.Moves.skipWhile _ c).trans hts⟩
  · exact ⟨_, .skipWhile _ c⟩

theorem collects_attempt {free : Bool} {one : ItemParser (Option Item)}
    (hone : Scans L one r (SoundItem L free)) :
    Collects L (attempt one) r fun ts ds o r' =>
      SoundItems L free ts ds o.toList r' ∧ (ds = [] → ts ≠ []) := by
  intro hc
  have h := hone hc
  unfold attempt
  cases hrun : one r with
  | ok o r' =>
    rw [hrun] at h
    obtain ⟨ts, ds, hmoves, hsound⟩ := h
    refine ⟨ts, ds, hmoves, ⟨by simpa using hsound.placed, by simpa using hsound.unmarked,
      hsound.accepted, fun hds hfree => ?_⟩, fun hds => hsound.consumed (Or.inl hds)⟩
    obtain ⟨i, rfl, hi⟩ := hsound.confined hds
    rw [Option.toList_some, Item.surfaceAll_single]
    exact hi hfree
  | error d r' =>
    rw [hrun] at h
    obtain ⟨⟨ts, ds, hmoves⟩, hd⟩ := h
    obtain ⟨us, hus⟩ := exists_moves_recover r'.cursor
    have hrecover : Reading.Moves L r' us [d] { r'.report d with cursor := r'.cursor.recover } :=
      ⟨hus, rfl, by simpa using hd⟩
    exact ⟨_, _, hmoves.trans hrecover, ⟨by simp, by simp, by simp, by simp⟩, by simp⟩

/-- One row of items behind the other. -/
theorem SoundItems.append {free : Bool} {es : List Diagnostic} {is js : List Item} {r'' : Reading}
    (h : SoundItems L free ts ds is r') (hmoves : r'.cursor.Moves us r''.cursor)
    (h' : SoundItems L free us es js r'') :
    SoundItems L free (ts ++ us) (ds ++ es) (is ++ js) r'' where
  placed i hi := (List.mem_append.1 hi).elim (h.placed i) (h'.placed i)
  unmarked hts i hi := (List.mem_append.1 hi).elim
    (h.unmarked (fun t ht => hts t (List.mem_append_left _ ht)) i)
    (h'.unmarked (fun t ht => hts t (List.mem_append_right _ ht)) i)
  accepted hds := by
    obtain ⟨rfl, rfl⟩ := List.append_eq_nil_iff.1 hds
    exact (h.accepted rfl).append hmoves (h'.accepted rfl)
  confined hds hfree := by
    obtain ⟨rfl, rfl⟩ := List.append_eq_nil_iff.1 hds
    rw [Item.surfaceAll_append]
    exact (h.confined rfl hfree).append (h'.confined rfl hfree)

theorem SoundItems.nil (free : Bool) (r' : Reading) : SoundItems L free [] [] [] r' :=
  ⟨by simp, by simp, fun _ => .of_plain rfl _, fun _ _ => .nil⟩

section Sequences

variable {free : Bool} {one : ItemParser (Option Item)}
variable (hone : ∀ r, Scans L one r (SoundItem L free))
include hone

theorem collects_items (stop : TokenKind → Bool) (limit : Nat) (r : Reading)
    (hlimit : r.cursor.rest.length ≤ limit) :
    Collects L (items one stop limit) r fun ts ds is r' =>
      SoundItems L free ts ds is r' ∧ ∀ k, r'.cursor.kind? = some k → stop k = true := by
  induction limit generalizing r with
  | zero =>
    refine .pure ⟨.nil free r, fun k hk => ?_⟩
    obtain ⟨t, ts, hrest, -⟩ := Cursor.exists_cons hk
    rw [hrest] at hlimit
    simp at hlimit
  | succ limit ih =>
    refine .get_bind ?_
    split
    · rename_i hkind
      exact .pure ⟨.nil free r, fun k hk => by rw [hkind] at hk; cases hk⟩
    · rename_i k hkind
      split
      · rename_i hstop
        refine .pure ⟨.nil free r, fun k' hk => ?_⟩
        rw [hkind] at hk
        cases hk
        exact hstop
      · refine .bind (collects_attempt (hone r)) fun o r' us es hmoves hsound => .get_bind ?_
        obtain ⟨hsound, hconsumed⟩ := hsound
        have hlength := hmoves.cursor.length_rest
        have hpositive := Cursor.length_pos_of_kind? hkind
        split
        · rename_i hstuck
          -- Nothing has been consumed, so there is a report: the token is skipped.
          have hus : us = [] := List.length_eq_zero_iff.1 (by omega)
          have hes : es ≠ [] := fun hes => hconsumed hes hus
          obtain ⟨t, ts, hrest⟩ := List.exists_cons_of_length_pos (hstuck ▸ hpositive)
          refine .advance_bind hrest (.bind (ih r'.advance ?_) fun is r'' vs ds hmoves' hnext => .pure ?_)
          · have hskip := Cursor.length_rest_advance r'.cursor
            have hcursor : r'.advance.cursor = r'.cursor.advance := rfl
            rw [hcursor]
            omega
          · have hskipped : SoundItems L free (us ++ [t]) es o.toList r'.advance :=
              ⟨hsound.placed, fun hts => hsound.unmarked fun s hs => hts s (List.mem_append_left _ hs),
                fun h => absurd h hes, fun h => absurd h hes⟩
            have h := hskipped.append hmoves'.cursor hnext.1
            rw [List.append_assoc] at h
            rw [List.append_nil, List.append_nil]
            exact ⟨h, hnext.2⟩
        · rename_i hprogress
          have hshort : r'.cursor.rest.length ≤ limit := by omega
          refine .bind (ih r' hshort) fun is r'' vs ds hmoves' hnext => .pure ?_
          rw [List.append_nil, List.append_nil]
          exact ⟨hsound.append hmoves'.cursor hnext.1, hnext.2⟩

theorem collects_allItems (stop : TokenKind → Bool) (r : Reading) :
    Collects L (allItems one stop) r fun ts ds is r' =>
      SoundItems L free ts ds is r' ∧ ∀ k, r'.cursor.kind? = some k → stop k = true :=
  .get_bind (collects_items hone stop _ r (Nat.le_refl _))

end Sequences

theorem collects_members {free : Bool} {one : ItemParser (Option Item)}
    (hone : ∀ r, isAtMember r.cursor = true → Scans L one r (SoundItem L free)) (limit : Nat)
    (r : Reading) : Collects L (members one limit) r (SoundItems L free) := by
  induction limit generalizing r with
  | zero => exact .pure (.nil free r)
  | succ limit ih =>
    refine .get_bind ?_
    split
    · rename_i hmember
      refine .bind (collects_attempt (hone r hmember)) fun o r' us es _ hsound => .get_bind ?_
      split
      · refine .pure ?_
        rw [List.append_nil, List.append_nil]
        exact hsound.1
      · refine .bind (ih r') fun is r'' vs ds hmoves hnext => .pure ?_
        rw [List.append_nil, List.append_nil]
        exact hsound.1.append hmoves.cursor hnext
    · exact .pure (.nil free r)

/-- Where what has been consumed ends, the item ends. -/
theorem scans_located {free : Bool} {kind : ItemParser (Option ItemKind)}
    (hkind : Scans L kind r (SoundKind? L free)) : Scans L (located kind) r (SoundItem L free) := by
  refine .assume fun hc => ?_
  refine .cursor_bind (hkind.bind fun o r' us es hmoves hsound => ?_)
  cases o with
  | none =>
    refine .pure ?_
    rw [List.append_nil, List.append_nil]
    refine .none fun hes => ?_
    obtain ⟨k, hk, -⟩ := hsound.confined hes
    cases hk
  | some k =>
    refine .cursor_bind (.pure ?_)
    rw [List.append_nil, List.append_nil]
    have hts : us ≠ [] := hsound.consumed (Or.inr rfl)
    refine .some ⟨?_, fun hts => ?_, hsound.accepted, fun hes hfree => ?_⟩ hts
    · exact Item.everywhere_iff.2 ⟨hmoves.cursor.inside hc hts, hsound.placed k rfl⟩
    · obtain ⟨hk, hnested⟩ := hsound.unmarked hts k rfl
      exact Item.everywhere_iff.2 ⟨Item.unmarked hk _, hnested⟩
    · obtain ⟨_, ⟨⟩, hk⟩ := hsound.confined hes
      refine (hk hfree).item ?_ ?_
      · obtain ⟨t, us, rfl⟩ := List.exists_cons_of_ne_nil hts
        rw [List.head?_cons, Option.map_some, Cursor.here_cons hmoves.cursor.rest]
      · rw [hmoves.cursor.lastEnd, Token.endFrom_eq_getLast?]
        rcases List.eq_nil_or_concat us with rfl | ⟨vs, t, rfl⟩
        · exact absurd rfl hts
        · simp

/-! ### Sites -/

theorem freeWord_starts {k : TokenKind} (h : (k == .ident || k.isNumber) = true) :
    k.isDirective = false := by
  cases k with
  | directive w => simp [TokenKind.isNumber] at h
  | _ => rfl

theorem scans_site {free : Bool} {member : ItemParser (Option Item)}
    (hmember : ∀ r, isAtMember r.cursor = true → Scans L member r (SoundItem L free))
    {t : Token} {ts : List Token} (hrest : r.cursor.rest = t :: ts) (ht : t.kind = .keyword .site) :
    Scans L (site member) r fun us ds k r' => us ≠ [] ∧ SoundKind L free us ds k r' := by
  have hw : t.kind.chainWord? = none := by rw [ht]; rfl
  refine .assume fun hc => ?_
  refine .cursor_bind (.advance_bind hrest (.lift_bind (Parser.reads_freeWord? fun k hk =>
    freeWord_starts hk) fun n r' us hmoves hn => ?_))
  cases n with
  | none => exact .throw fun _ => Extent.inside_emptyAt hc.here.2
  | some n =>
    refine .cursor_bind (.bind (.of_collects (collects_members hmember _ r'))
      fun is r'' vs ds hmoves' his => .pure ?_)
    rw [List.append_nil, List.append_nil]
    refine ⟨by simp, ?_, fun hts => ?_, fun hds => ?_, fun hds hfree => ?_⟩
    · simpa [ItemKind.Everywhere, Item.allEverywhere_iff] using his.placed
    · have hmembers := his.unmarked fun s hs => hts s (by simp [hs])
      have hname := hn.unmarked fun s hs => hts s (by simp [hs])
      refine ⟨ItemKind.unmarked_site (fun h => hname (congrArg some h))
        fun i hi => (hmembers i hi).self, ?_⟩
      simpa [ItemKind.Everywhere, Item.allEverywhere_iff] using hmembers
    · refine (his.accepted hds).congr ?_
      rw [chainWords_cons_none hw, chainWords_append, hn.words, List.nil_append]
    · refine .of_inner (by simp [ht, TokenKind.isMacroScoped]) ?_
      rw [ItemKind.inner]
      refine (his.confined hds hfree).behind (t :: us) ?_
      exact List.forall_mem_cons.2 ⟨by rw [ht]; rfl, hn.not_confined⟩

/-! ### Conditionals -/

/-- From `c` the rest of a conditional of the family `f` has been read, over the tokens `us` up to `c'`:
whatever conditionals `ws` stand before in the branch at `c`, all of it are the branches of one
conditional. -/
def Continues (f : Family) (more : Bool) (c : Cursor) (us : List Token) (c' : Cursor) : Prop :=
  ∀ n ws u, Conditionals n ws u → (∀ w ∈ u, c.word? = some w) →
    ∃ m left, Branches f more m (ws ++ chainWords us) left ∧ ∀ w ∈ left, c'.word? = some w

/-- A word that starts another branch ends the conditional that has no use for it. -/
theorem continues_leave {f : Family} {more : Bool} {c : Cursor} {w : ChainToken}
    (hw : c.word? = some w) (hbranch : w.2 = .elseif ∨ w.2 = .otherwise)
    (hf : more = true → w.1 ≠ f) : Continues f more c [] c := by
  intro n ws u hn hu
  refine ⟨n + 1, some w, ?_, ?_⟩
  · rw [chainWords_nil, List.append_nil]
    refine .leave hn (fun s hs => ?_) hbranch hf
    have h := hu s hs
    rw [hw] at h
    exact (Option.some.inj h).symm
  · rintro _ ⟨⟩
    exact hw

theorem continues_endif {f : Family} {more : Bool} {c c' : Cursor} {t : Token}
    (hw : c.word? = some (f, .endif)) (ht : t.kind.chainWord? = some (f, .endif)) :
    Continues f more c [t] c' := by
  intro n ws u hn hu
  have hnone : u = none := by
    cases u with
    | none => rfl
    | some w =>
      have h := hu w rfl
      rw [hw, Option.some.injEq] at h
      rcases hn.word_of_left w rfl with hword | hword <;> rw [← h] at hword <;> cases hword
  subst hnone
  refine ⟨n, none, ?_, by simp⟩
  rw [chainWords_cons_some ht, chainWords_nil]
  exact .endif hn

/-- A further branch: its first word is `t`, `vs` is read up to its first item, and `body` are the
tokens of its items. -/
theorem Accepts.branch {f : Family} {t : Token} {vs body us : List Token} {c c' c'' : Cursor}
    {word : ChainWord} {more : Bool} (hw : c.word? = some (f, word))
    (ht : t.kind.chainWord? = some (f, word)) (hvs : chainWords vs = []) (hbody : Accepts body c')
    (hrest : Continues f more c' us c'')
    (hbranch : word = .elseif ∧ more = true ∨ word = .otherwise ∧ more = false) :
    Continues f true c (t :: (vs ++ (body ++ us))) c'' := by
  intro n ws u hn hu
  obtain ⟨k, left, hk, hleft⟩ := hbody
  obtain ⟨m, left', hm, hleft'⟩ := hrest k _ left hk hleft
  have hu' : ∀ s ∈ u, s = (f, word) := by
    intro s hs
    have h := hu s hs
    rw [hw] at h
    exact (Option.some.inj h).symm
  refine ⟨n + m, left', ?_, hleft'⟩
  rw [chainWords_cons_some ht, chainWords_append, hvs, List.nil_append, chainWords_append]
  rcases hbranch with ⟨rfl, rfl⟩ | ⟨rfl, rfl⟩
  · exact .elseif hn hu' hm
  · exact .otherwise hn hu' hm

theorem word?_of_closesBranch {k : TokenKind} (h : k.closesBranch = true) :
    ∃ f word, k = .directive (.chain f word) ∧
      (word = .elseif ∨ word = .otherwise ∨ word = .endif) := by
  cases k with
  | directive d =>
    cases d with
    | chain f word =>
      refine ⟨f, word, rfl, ?_⟩
      cases word <;> simp_all [TokenKind.closesBranch, DirectiveWord.closesBranch]
    | _ => cases h
  | _ => cases h

theorem kind_of_branchWord {k : TokenKind} {w : ChainToken} (h : k.chainWord? = some w)
    (hw : w.2 = .elseif ∨ w.2 = .otherwise) : k = .directive (.chain w.1 w.2) := by
  unfold TokenKind.chainWord? at h
  split at h <;> cases h
  · rfl
  all_goals simp at hw

/-- The words of a conditional of a document are not confined to macros. -/
theorem not_isConfined_of_chain {t : Token} {family : Family} {word : ChainWord}
    (ht : t.kind = .directive (.chain family word)) (hfamily : family = .document) :
    t.kind.isConfined = false := by
  have hchain : t.kind.chainWord? = some (.document, word) := by
    rw [ht, hfamily]
    rfl
  exact TokenKind.isConfined_of_not_isMacroScoped (TokenKind.isMacroScoped_of_chainWord? hchain)

/-- The end of a conditional.  `more` says whether a further branch of its family could have come. -/
theorem scans_closeChain {opening : Opening} (hinside : opening.range.Inside L) (more : Bool)
    (hmore : more = true → ∀ w, r.cursor.word? = some w → w.2 = .elseif ∨ w.2 = .otherwise →
      w.1 ≠ opening.family) :
    Scans L (closeChain opening) r fun us ds _ r' => ds = [] →
      Continues opening.family more r.cursor us r'.cursor ∧
        (opening.family = .document → ∀ t ∈ us, t.kind.isConfined = false) := by
  refine .assume fun hc => .cursor_bind ?_
  split
  · rename_i f hkind
    obtain ⟨t, ts, hrest, ht⟩ := Cursor.exists_cons hkind
    refine .ite (fun hf => ?_) fun _ => ?_
    · refine (Scans.advance hrest).mono ?_
      rintro _ _ _ _ _ ⟨rfl, rfl, rfl⟩ _
      subst hf
      refine ⟨continues_endif (Cursor.word?_eq hkind) (by rw [ht]; rfl), fun hfamily => ?_⟩
      refine List.forall_mem_singleton.2 (TokenKind.isConfined_of_not_isMacroScoped ?_)
      exact TokenKind.isMacroScoped_of_chainWord? (by rw [ht, hfamily]; rfl)
    · have hrest' : (r.report ⟨.mixedConditional (r.cursor.found.getD "") opening.text,
          r.cursor.here⟩).cursor.rest = t :: ts := hrest
      refine .report_bind (fun _ => hc.here) ((Scans.advance hrest').mono ?_)
      intro _ _ _ _ _ _ h
      cases h
  · rename_i k hendif hkind
    refine .ite (fun hcloses => .pure fun _ => ?_) fun _ => ?_
    · obtain ⟨f, word, rfl, hword⟩ := word?_of_closesBranch hcloses
      have hw : r.cursor.word? = some (f, word) := Cursor.word?_eq hkind
      have hbranch : word = .elseif ∨ word = .otherwise := by
        rcases hword with h | h | rfl
        · exact .inl h
        · exact .inr h
        · exact absurd rfl (hendif f)
      exact ⟨continues_leave hw hbranch fun h => hmore h _ hw hbranch,
        fun _ => List.forall_mem_nil _⟩
    · refine (Scans.report fun _ => hinside).mono ?_
      rintro _ _ _ _ _ ⟨rfl, rfl, rfl⟩ h
      cases h
  · refine (Scans.report fun _ => hinside).mono ?_
    rintro _ _ _ _ _ ⟨rfl, rfl, rfl⟩ h
    cases h

/-- What is read of a conditional of the family `f` from `c` on, where items of a branch have been
read. -/
structure SoundChain (L : Nat) (free : Bool) (f : Family) (c : Cursor) (ts : List Token)
    (ds : List Diagnostic) (chain : Chain) (r' : Reading) : Prop where
  placed : chain.Everywhere (Item.Inside L)
  unmarked : (∀ t ∈ ts, t.IsUnmarked) → chain.Unmarked ∧ chain.Everywhere Item.Unmarked
  accepted : ds = [] → Continues f true c ts r'.cursor
  confined : ds = [] → free = false → Confined ts chain.inner

section Conditionals

variable {expr : Parser Expr} (hexpr : ∀ c, Parser.Reads L expr c (Parser.Plain 1 Expr.Unmarked))
variable {free free' : Bool} {body : StateM Reading (List Item)}
variable (hbody : ∀ r, Collects L body r (SoundItems L free'))
include hexpr hbody

/-- A branch with a condition of its own, and the branches behind it. -/
theorem scans_elseif {opening : Opening}
    (hfree : free = false → free' = false ∧ opening.family = .document) {limit : Nat}
    (hkind : r.cursor.kind? = some (.directive (.chain opening.family .elseif)))
    (hlater : ∀ r' : Reading, r'.cursor.rest.length < r.cursor.rest.length →
      Scans L (laterBranches opening expr body limit) r' (SoundChain L free opening.family r'.cursor)) :
    Scans L (do
      advance
      let condition ← Parser.exprCondition expr
      let items ← body
      return .branch condition items (← laterBranches opening expr body limit)) r
      (SoundChain L free opening.family r.cursor) := by
  have hw : r.cursor.word? = some (opening.family, .elseif) := Cursor.word?_eq hkind
  obtain ⟨t, ts, hrest, ht⟩ := Cursor.exists_cons hkind
  refine .advance_bind hrest (.lift_bind (Parser.reads_exprCondition hexpr _)
    fun condition r₁ vs hmoves₁ hcondition => ?_)
  refine .bind (.of_collects (hbody r₁)) fun is r₂ bs ds hmoves₂ his => ?_
  refine .bind (hlater r₂ ?_) fun rest r₃ us es _ hlater => .pure ?_
  · have h := (Cursor.Moves.advance hrest).length_rest
    have h₁ := hmoves₁.cursor.length_rest
    have h₂ := hmoves₂.cursor.length_rest
    have hcursor : r.advance.cursor = r.cursor.advance := rfl
    rw [hcursor] at h₁
    simp only [List.length_singleton] at h
    omega
  · rw [List.append_nil, List.append_nil]
    refine ⟨⟨Item.allEverywhere_iff.2 his.placed, hlater.placed⟩, fun hts => ?_,
      fun hds => ?_, fun hds hf => ?_⟩
    · have hitems := his.unmarked fun s hs => hts s (by simp [hs])
      obtain ⟨hrest, hrest'⟩ := hlater.unmarked fun s hs => hts s (by simp [hs])
      exact ⟨Chain.unmarked_branch (hcondition.unmarked fun s hs => hts s (by simp [hs]))
        (fun i hi => (hitems i hi).self) hrest, Item.allEverywhere_iff.2 hitems, hrest'⟩
    · obtain ⟨rfl, rfl⟩ := List.append_eq_nil_iff.1 hds
      exact Accepts.branch hw (by rw [ht]; rfl) hcondition.words (his.accepted rfl)
        (hlater.accepted rfl) (.inl ⟨rfl, rfl⟩)
    · obtain ⟨rfl, rfl⟩ := List.append_eq_nil_iff.1 hds
      rw [Chain.inner]
      refine ((his.confined rfl (hfree hf).1).append (hlater.confined rfl hf)).behind (t :: vs) ?_
      exact List.forall_mem_cons.2 ⟨not_isConfined_of_chain ht (hfree hf).2,
        hcondition.not_confined⟩

omit hexpr in
/-- The branch for all else, and the end. -/
theorem scans_otherwise {opening : Opening} (hinside : opening.range.Inside L)
    (hfree : free = false → free' = false ∧ opening.family = .document)
    (hkind : r.cursor.kind? = some (.directive (.chain opening.family .otherwise))) :
    Scans L (do
      advance
      let items ← body
      closeChain opening
      return Chain.otherwise items) r (SoundChain L free opening.family r.cursor) := by
  have hw : r.cursor.word? = some (opening.family, .otherwise) := Cursor.word?_eq hkind
  obtain ⟨t, ts, hrest, ht⟩ := Cursor.exists_cons hkind
  refine .advance_bind hrest (.bind (.of_collects (hbody _)) fun is r₁ bs ds _ his => ?_)
  refine .bind (scans_closeChain hinside false (by simp)) fun _ r₂ us es _ hclose => .pure ?_
  rw [List.append_nil, List.append_nil]
  refine ⟨Item.allEverywhere_iff.2 his.placed, fun hts => ?_, fun hds => ?_, fun hds hf => ?_⟩
  · have hitems := his.unmarked fun s hs => hts s (by simp [hs])
    exact ⟨Chain.unmarked_otherwise fun i hi => (hitems i hi).self, Item.allEverywhere_iff.2 hitems⟩
  · obtain ⟨rfl, rfl⟩ := List.append_eq_nil_iff.1 hds
    exact Accepts.branch hw (by rw [ht]; rfl) chainWords_nil (his.accepted rfl) (hclose rfl).1
      (.inr ⟨rfl, rfl⟩)
  · obtain ⟨rfl, rfl⟩ := List.append_eq_nil_iff.1 hds
    rw [Chain.inner]
    exact ((his.confined rfl (hfree hf).1).before ((hclose rfl).2 (hfree hf).2)).behind
      [t] (List.forall_mem_singleton.2 (not_isConfined_of_chain ht (hfree hf).2))

omit hexpr hbody in
/-- No branch of the family is left. -/
theorem scans_done {opening : Opening} (hinside : opening.range.Inside L)
    (hfree : free = false → opening.family = .document)
    (hmore : ∀ w, r.cursor.word? = some w → w.2 = .elseif ∨ w.2 = .otherwise →
      w.1 ≠ opening.family) :
    Scans L (do closeChain opening; return Chain.done) r
      (SoundChain L free opening.family r.cursor) := by
  refine .bind (scans_closeChain hinside true fun _ => hmore) fun _ r' us ds _ hclose => .pure ?_
  rw [List.append_nil, List.append_nil]
  exact ⟨trivial, fun _ => ⟨Chain.unmarked_done, trivial⟩, fun hds => (hclose hds).1,
    fun hds hf => .of_not_confined ((hclose hds).2 (hfree hf))⟩

/-- The branches behind the first.  In a conditional of a macro it is not said what is confined. -/
theorem scans_laterBranches {opening : Opening} (hinside : opening.range.Inside L)
    (hfree : free = false → free' = false ∧ opening.family = .document) (limit : Nat)
    (r : Reading) (hlimit : r.cursor.rest.length < limit) :
    Scans L (laterBranches opening expr body limit) r
      (SoundChain L free opening.family r.cursor) := by
  induction limit generalizing r with
  | zero => omega
  | succ limit ih =>
    have hdone := scans_done (r := r) hinside fun hf => (hfree hf).2
    refine .cursor_bind ?_
    split
    · rename_i f hkind
      refine .ite (fun hf => ?_) fun hf => hdone ?_
      · subst hf
        exact scans_elseif hexpr hbody hfree hkind fun r' hr' => ih r' (by omega)
      · rw [Cursor.word?_eq hkind]
        rintro _ ⟨⟩ _
        exact hf
    · rename_i f hkind
      refine .ite (fun hf => ?_) fun hf => hdone ?_
      · subst hf
        exact scans_otherwise hbody hinside hfree hkind
      · rw [Cursor.word?_eq hkind]
        rintro _ ⟨⟩ _
        exact hf
    · rename_i helseif hotherwise
      refine hdone fun w hw hbranch => ?_
      obtain ⟨k, hkind, hk⟩ := Option.bind_eq_some_iff.1 hw
      rw [kind_of_branchWord hk hbranch] at hkind
      rcases hbranch with h | h <;> rw [h] at hkind
      · exact absurd hkind (helseif _)
      · exact absurd hkind (hotherwise _)

/-- A conditional, the token `t` being the word that opens it. -/
theorem scans_conditional {family : Family} {word : DirectiveWord} {t : Token} {ts : List Token}
    (hfree : free = false → free' = false ∧ family = .document) (hrest : r.cursor.rest = t :: ts)
    (ht : t.kind = .directive word) (hw : t.kind.chainWord? = some (family, .opening)) :
    Scans L (conditional family word expr body) r fun us ds k r' =>
      us ≠ [] ∧ SoundKind L free us ds k r' := by
  refine .assume fun hc => ?_
  refine .cursor_bind (.lift_bind (Parser.reads_openingCondition hexpr word hrest)
    fun condition r₁ us _ hcondition => ?_)
  obtain ⟨vs, rfl, hcondition, htested⟩ := hcondition
  refine .bind (.of_collects (hbody r₁)) fun is r₂ bs ds _ his => ?_
  refine .cursor_bind (.bind (scans_laterBranches hexpr hbody hc.here hfree _ r₂ (Nat.lt_succ_self _))
    fun rest r₃ ls es _ hlater => .pure ?_)
  rw [List.append_nil, List.append_nil]
  refine ⟨by simp, ⟨Item.allEverywhere_iff.2 his.placed, hlater.placed⟩, fun hts => ?_,
    fun hds => ?_, fun hds hf => ?_⟩
  · have hitems := his.unmarked fun s hs => hts s (by simp [hs])
    obtain ⟨hrest, hrest'⟩ := hlater.unmarked fun s hs => hts s (by simp [hs])
    have hchain := Chain.unmarked_branch (hcondition.unmarked fun s hs => hts s (by simp [hs]))
      (fun i hi => (hitems i hi).self) hrest
    exact ⟨ItemKind.unmarked_conditional hchain family, Item.allEverywhere_iff.2 hitems, hrest'⟩
  · obtain ⟨rfl, rfl⟩ := List.append_eq_nil_iff.1 hds
    obtain ⟨n, left, hn, hleft⟩ := his.accepted rfl
    obtain ⟨m, left', hm, hleft'⟩ := hlater.accepted rfl n _ left hn hleft
    refine ⟨m, left', ?_, hleft'⟩
    rw [List.cons_append, chainWords_cons_some hw, chainWords_append,
      hcondition.words_of_isTested, List.nil_append, chainWords_append]
    exact hm.conditionals
  · obtain ⟨rfl, rfl⟩ := List.append_eq_nil_iff.1 hds
    obtain ⟨hf', rfl⟩ := hfree hf
    have hscoped := TokenKind.isMacroScoped_of_chainWord? hw
    have hword : word ≠ .ifarg := by
      rintro rfl
      rw [ht] at hw
      cases hw
    refine .of_inner (by simpa using hscoped) ?_
    rw [ItemKind.inner, Chain.inner]
    refine ((his.confined rfl hf').append (hlater.confined rfl hf)).behind (t :: vs) ?_
    exact List.forall_mem_cons.2
      ⟨TokenKind.isConfined_of_not_isMacroScoped hscoped, htested hword⟩

end Conditionals

/-! ### Macros and blocks -/

/-- The mark that closes a body is no word of a conditional. -/
theorem scans_takeIf {kind : TokenKind} (hw : kind.chainWord? = none) :
    Scans L (takeIf kind) r fun us ds b _ =>
      ds = [] ∧ chainWords us = [] ∧
        (b = true → r.cursor.word? = none ∧ ∃ t, us = [t] ∧ t.kind = kind) := by
  refine .lift ((Parser.Reads.takeIf_token kind).imp fun us b h => ?_)
  rcases h with ⟨-, hk, t, rfl, rfl⟩ | ⟨rfl, rfl⟩
  · exact ⟨by rw [chainWords_cons_none hw, chainWords_nil],
      fun _ => ⟨by rw [Cursor.word?_eq hk, hw], t, rfl, rfl⟩⟩
  · exact ⟨rfl, by simp⟩

section Bodies

variable {free' : Bool} {body : StateM Reading (List Item)}
variable (hbody : ∀ r, Collects L body r (SoundItems L free'))
include hbody

/-- The body of a macro and what it is made into, behind the head of the macro. -/
def macroBody (isList : Bool) (body : StateM Reading (List Item)) (signatures : List Signature) :
    ItemParser ItemKind := do
  let opening := (← cursor).here
  Parser.expect (.mark .openBrace) .bodyStart
  let items ← body
  if !(← takeIf (.mark .closeBrace)) then report ⟨.unclosedMacro, opening⟩
  return .macroDecl isList signatures items

/-- The tokens stand between braces. -/
def IsBraced (ts : List Token) : Prop :=
  ∃ opening body closing, ts = opening :: (body ++ [closing]) ∧
    opening.kind = .mark .openBrace ∧ closing.kind = .mark .closeBrace

theorem scans_macroBody (isList : Bool) (signatures : List Signature) :
    Scans L (macroBody isList body signatures) r
      (Sound (ItemKind.Everywhere (Item.Inside L))
        (fun k : ItemKind => k.Unmarked ∧ k.Everywhere Item.Unmarked)
        fun us k => k.IsMacro ∧ IsBraced us) := by
  refine .assume fun hc => ?_
  refine .cursor_bind (.lift_bind (Parser.Reads.expect_token _ _) fun _ r₁ vs _ hvs => ?_)
  refine .bind (.of_collects (hbody r₁)) fun is r₂ bs ds _ his => ?_
  refine .bind (scans_takeIf rfl) fun b r₃ us es _ hb => ?_
  obtain ⟨opening, rfl, hopening⟩ := hvs
  obtain ⟨rfl, hus, hclosed⟩ := hb
  -- either the brace that closes the body has been taken or its absence has been reported
  have hkind : ∀ fs r', (fs = [] → b = true) → r'.cursor = r₃.cursor →
      Sound (ItemKind.Everywhere (Item.Inside L))
        (fun k : ItemKind => k.Unmarked ∧ k.Everywhere Item.Unmarked)
        (fun us k => k.IsMacro ∧ IsBraced us)
        (opening :: (bs ++ us)) (ds ++ fs) (.macroDecl isList signatures is) r' := by
    intro fs r' hreport hcursor
    refine ⟨Item.allEverywhere_iff.2 his.placed, fun hts => ?_, fun hds => ?_, fun hds => ?_⟩
    · have hitems := his.unmarked fun s hs => hts s (by simp [hs])
      exact ⟨ItemKind.unmarked_macroDecl _ _ _, Item.allEverywhere_iff.2 hitems⟩
    · obtain ⟨rfl, hfs⟩ := List.append_eq_nil_iff.1 hds
      refine ((his.accepted rfl).closed (hclosed (hreport hfs)).1 _).congr ?_
      rw [chainWords_cons_none (by rw [hopening]; rfl), chainWords_append, hus, List.append_nil]
    · obtain ⟨-, hfs⟩ := List.append_eq_nil_iff.1 hds
      obtain ⟨-, closing, rfl, hclosing⟩ := hclosed (hreport hfs)
      exact ⟨trivial, opening, bs, closing, rfl, hopening, hclosing⟩
  refine .ite (fun hfalse => .report_bind (fun _ => hc.here) (.pure ?_)) fun htrue => .pure ?_
  · have h := hkind [⟨.unclosedMacro, r.cursor.here⟩] (r₃.report ⟨.unclosedMacro, r.cursor.here⟩)
      (fun h => by cases h) rfl
    rwa [List.append_nil]
  · have h := hkind [] r₃ (fun _ => by simpa using htrue) rfl
    rwa [List.append_nil us, List.append_nil]

/-- The head of a macro, with its first word, holds no words of conditionals and no braces. -/
theorem scans_macroBody_behind (free isList : Bool) (signatures : List Signature) {t : Token}
    (ht : t.kind = .keyword .macroDecl ∨ t.kind = .directive .list) {n : Nat} {F : α → Prop}
    (hus : Parser.Takes Parser.isHead n F us a) :
    Scans L (macroBody isList body signatures) r fun vs ds k r' =>
      t :: (us ++ vs) ≠ [] ∧ SoundKind L free (t :: (us ++ vs)) ds k r' := by
  have hplain : t.kind.isPlain = true ∧ t.kind.isMacroScoped = false ∧
      t.kind ≠ .mark .openBrace := by
    rcases ht with ht | ht <;> rw [ht] <;> exact ⟨rfl, rfl, by simp⟩
  have hkinds : ∀ s ∈ t :: us, s.kind.isPlain = true ∧ s.kind ≠ .mark .openBrace :=
    List.forall_mem_cons.2 ⟨⟨hplain.1, hplain.2.2⟩, fun s hs =>
      ⟨Parser.isPlain_of_isHead (hus.kinds s hs), Parser.ne_openBrace_of_isHead (hus.kinds s hs)⟩⟩
  refine (scans_macroBody hbody isList signatures).mono fun vs ds k r' _ hk =>
    ⟨by simp, hk.behind (t :: us) ?_ ?_⟩
  · exact chainWords_eq_nil fun s hs => (TokenKind.isPlain_iff.1 (hkinds s hs).1).1
  · rintro ⟨hdecl, opening, body, closing, rfl, hopening, hclosing⟩ _
    exact .macroDecl hdecl (by simpa using hplain.2.1) (List.cons_ne_nil _ _)
      (fun s hs => ⟨(TokenKind.isPlain_iff.1 (hkinds s hs).1).2, (hkinds s hs).2⟩) hopening hclosing

theorem scans_macroDecl (free isList : Bool) {t : Token} {ts : List Token}
    (hrest : r.cursor.rest = t :: ts)
    (ht : t.kind = .keyword .macroDecl ∨ t.kind = .directive .list) :
    Scans L (macroDecl isList body) r fun us ds k r' => us ≠ [] ∧ SoundKind L free us ds k r' := by
  refine .advance_bind hrest (.ite (fun _ => ?_) fun _ => ?_)
  · refine .cursor_bind (.lift_bind (Parser.reads_signatures _ _) fun signatures r₁ us _ hus => ?_)
    exact scans_macroBody_behind hbody free isList signatures ht hus
  · exact .lift_bind (Parser.reads_signature _) fun signature r₁ us _ hus =>
      scans_macroBody_behind hbody free isList [signature] ht hus

theorem scans_block {free : Bool} (hfree : free = false → free' = false) {t : Token} {ts : List Token}
    (hrest : r.cursor.rest = t :: ts) (ht : t.kind = .mark .openBrace) :
    Scans L (block body) r fun us ds k r' => us ≠ [] ∧ SoundKind L free us ds k r' := by
  refine .assume fun hc => ?_
  refine .cursor_bind (.advance_bind hrest (.bind (.of_collects (hbody _)) fun is r₁ bs ds _ his => ?_))
  refine .bind (scans_takeIf rfl) fun b r₂ us es _ hb => ?_
  obtain ⟨rfl, hus, hclosed⟩ := hb
  refine .ite (fun htrue => .pure ?_) fun _ => .throw fun _ => hc.here
  obtain ⟨hword, closing, rfl, hclosing⟩ := hclosed htrue
  rw [List.append_nil, List.append_nil, List.append_nil]
  refine ⟨by simp, Item.allEverywhere_iff.2 his.placed, fun hts => ?_, fun hds => ?_,
    fun hds hf => ?_⟩
  · have hitems := his.unmarked fun s hs => hts s (by simp [hs])
    exact ⟨ItemKind.unmarked_block fun i hi => (hitems i hi).self, Item.allEverywhere_iff.2 hitems⟩
  · refine ((his.accepted hds).closed hword _).congr ?_
    rw [chainWords_cons_none (by rw [ht]; rfl), chainWords_append, hus, List.append_nil]
  · refine .of_inner (by simp [ht, TokenKind.isMacroScoped]) ?_
    rw [ItemKind.inner]
    exact ((his.confined hds (hfree hf)).before
      (List.forall_mem_singleton.2 (by rw [hclosing]; rfl))).behind [t]
      (List.forall_mem_singleton.2 (by rw [ht]; rfl))

end Bodies

/-! ### Items of one level -/

/-- A kind of item that was read behind something is an item if it is kept. -/
theorem Scans.some {free : Bool} {p : ItemParser ItemKind}
    (h : Scans L p r fun us ds k r' => us ≠ [] ∧ SoundKind L free us ds k r') :
    Scans L (do return some (← p)) r (SoundKind? L free) := by
  refine h.bind fun k r' us ds _ hk => .pure ?_
  rw [List.append_nil, List.append_nil]
  exact .some hk.2 hk.1

theorem scans_nested {deeper : Deeper}
    {parse : (Scope → ItemParser (Option Item)) → ItemParser α}
    {P : List Token → List Diagnostic → α → Reading → Prop}
    (h : ∀ next ∈ deeper, Scans L (parse next) r P) : Scans L (nested deeper parse) r P := by
  cases deeper with
  | none =>
    exact (Scans.lift (Parser.Reads.fail (Q := fun _ _ => False) _)).mono fun _ _ _ _ _ h => h.2.elim
  | some next => exact h next rfl

/-- The current token is reported and skipped. -/
theorem scans_refused {range : Extent} (free : Bool) (fault : Fault)
    (hrange : r.cursor.InText L → range.Inside L) :
    Scans L (do report ⟨fault, range⟩; advance; return none) r (SoundKind? L free) := by
  refine .report_bind hrange ?_
  intro _
  obtain ⟨ts, hts⟩ := Cursor.Moves.exists_advance r.cursor
  exact ⟨ts, [], .of_cursor hts, .none (by simp)⟩

theorem scans_unexpected (free : Bool) (scope : Scope) :
    Scans L (unexpected scope) r (SoundKind? L free) :=
  .cursor_bind (scans_refused free _ fun hc => hc.here)

section Level

variable (v : Vocabulary) (levels : Nat) {deeper : Deeper}
variable (hdeeper : ∀ next ∈ deeper, ∀ scope r, Scans L (next scope) r (SoundItem L scope.inMacro))
include hdeeper

/-- The items of a body that is read one level deeper. -/
theorem collects_body {next : Scope → ItemParser (Option Item)} (hnext : next ∈ deeper)
    (scope : Scope) (stop : TokenKind → Bool) (r : Reading) :
    Collects L (allItems (next scope) stop) r (SoundItems L scope.inMacro) := by
  intro hc
  obtain ⟨us, ds, hmoves, his⟩ := collects_allItems (hdeeper next hnext scope) stop r hc
  exact ⟨us, ds, hmoves, his.1⟩

/-- A directive that needs a macro may hold what is confined. -/
theorem scans_directiveAnywhere (scope : Scope) {word : DirectiveWord}
    (hkind : r.cursor.kind? = some (.directive word)) :
    Scans L (directiveAnywhere v levels deeper scope word) r
      (SoundKind? L (scope.inMacro || needsMacro word)) := by
  obtain ⟨t, ts, hrest, ht⟩ := Cursor.exists_cons hkind
  have hexpr := Parser.reads_expression (L := L) v levels
  have hinner := Parser.reads_expression (L := L) v (levels - 1)
  have hconditional : ∀ family, t.kind.chainWord? = some (family, .opening) →
      (needsMacro word = false → family = .document) →
      Scans L (nested deeper fun next => do
        return some (← conditional family word (Parser.expression v (levels - 1) true)
          (allItems (next scope) endsBranch))) r
        (SoundKind? L (scope.inMacro || needsMacro word)) := by
    intro family hw hfamily
    refine scans_nested fun next hnext => .some (scans_conditional (hinner true)
      (collects_body hdeeper hnext scope endsBranch) (fun hfree => ?_) hrest ht hw)
    rw [Bool.or_eq_false_iff] at hfree
    exact ⟨hfree.1, hfamily hfree.2⟩
  unfold directiveAnywhere
  split
  · rename_i parse hparse
    refine scans_simple hrest (fun _ => ?_) (Parser.reads_plainDirective? v levels hparse hkind)
      (fun d hd => ItemKind.unmarked_directive hd) fun _ _ _ _ => trivial
    rw [ht]
    unfold Parser.plainDirective? at hparse
    split at hparse <;> first | rfl | cases hparse
  · split
    · exact hconditional _ (by rw [ht]; rfl) fun _ => rfl
    · exact hconditional _ (by rw [ht]; rfl) fun _ => rfl
    · exact hconditional _ (by rw [ht]; rfl) fun _ => rfl
    · exact hconditional _ (by rw [ht]; rfl) fun h => by cases h
    · exact hconditional _ (by rw [ht]; rfl) fun h => by cases h
    · refine .advance_bind hrest (.lift_bind (Parser.reads_name _) fun n r' us _ hn => .pure ?_)
      rw [List.append_nil]
      refine .some ⟨trivial, fun _ => ⟨ItemKind.unmarked_bodyOp _ n, trivial⟩, fun _ =>
        .of_plain ?_ _, fun _ hfree => by simp [needsMacro] at hfree⟩ (by simp)
      rw [chainWords_cons_none (by rw [ht]; rfl), hn.words]
    · exact scans_simple hrest (fun hfree => by simp [needsMacro] at hfree) (hexpr false _)
        (fun e he => ItemKind.unmarked_expr he) fun _ _ _ _ => trivial
    · exact .cursor_bind (scans_refused _ _ fun hc => hc.here)
    · exact scans_unexpected _ scope

theorem scans_directive (scope : Scope) {word : DirectiveWord}
    (hkind : r.cursor.kind? = some (.directive word)) :
    Scans L (directive v levels deeper scope word) r (SoundKind? L scope.inMacro) := by
  refine .assume fun hc => ?_
  refine .cursor_bind (.bind (scans_directiveAnywhere v levels hdeeper scope hkind)
    fun o r' us es _ ho => ?_)
  refine .ite (fun _ => ?_) fun hallowed => ?_
  · exact .report_bind (fun _ => hc.here) (.pure (.none (by simp)))
  refine .pure ?_
  rw [List.append_nil, List.append_nil]
  refine ho.imp fun k hk hfree => hk ?_
  rw [hfree, Bool.false_or]
  simpa [hfree] using hallowed

theorem scans_macroItem (scope : Scope) (isList : Bool) {t : Token} {ts : List Token}
    (hrest : r.cursor.rest = t :: ts)
    (ht : t.kind = .keyword .macroDecl ∨ t.kind = .directive .list) :
    Scans L (macroItem deeper scope isList) r (SoundKind? L scope.inMacro) := by
  refine .assume fun hc => ?_
  refine .cursor_bind (.bind (scans_nested fun next hnext => scans_macroDecl (collects_body hdeeper
    hnext _ _) scope.inMacro isList hrest ht) fun k r' us es _ hk => ?_)
  refine .ite (fun _ => .report_bind (fun _ => hc.here) (.pure (.none (by simp)))) fun _ => .pure ?_
  rw [List.append_nil, List.append_nil]
  exact .some hk.2 hk.1

theorem scans_leaf (scope : Scope) {t : Token} {ts : List Token} (hrest : r.cursor.rest = t :: ts) :
    Scans L (leaf v levels deeper scope t) r (SoundKind? L scope.inMacro) := by
  have hexpr := Parser.reads_expression (L := L) v levels
  have hkind := Cursor.kind?_cons hrest
  unfold leaf
  dsimp only
  split
  · rename_i hk
    rw [hk] at hkind
    exact scans_simple hrest (fun _ => by rw [hk]; rfl)
      (Parser.reads_declaration (hexpr true) scope .prm hkind rfl)
      (fun k hk => hk) (Parser.isSimple_declaration _ scope .prm)
  · rename_i hk
    rw [hk] at hkind
    exact scans_simple hrest (fun _ => by rw [hk]; rfl)
      (Parser.reads_declaration (hexpr true) scope .localPrm hkind rfl)
      (fun k hk => hk) (Parser.isSimple_declaration _ scope .localPrm)
  · rename_i hk
    rw [hk] at hkind
    exact scans_simple hrest (fun _ => by rw [hk]; rfl)
      (Parser.reads_existing (hexpr true) hkind rfl)
      (fun k hk => hk) (Parser.isSimple_existing _)
  · rename_i hk
    exact scans_macroItem hdeeper scope false hrest (.inl hk)
  · rename_i hk
    exact scans_macroItem hdeeper scope true hrest (.inr hk)
  · rename_i word _ hk
    rw [hk] at hkind
    exact scans_directive v levels hdeeper scope hkind
  · rename_i hk
    rw [hk] at hkind
    exact scans_simple hrest (fun _ => by rw [hk]; rfl)
      (Parser.reads_markedParameter_mark v (.inl hkind))
      (fun p hp => ItemKind.unmarked_parameter hp) fun _ _ _ _ => trivial
  · rename_i hk
    rw [hk] at hkind
    exact scans_simple hrest (fun _ => by rw [hk]; rfl)
      (Parser.reads_markedParameter_mark v (.inr hkind))
      (fun p hp => ItemKind.unmarked_parameter hp) fun _ _ _ _ => trivial
  · rename_i op hk
    rw [hk] at hkind
    exact scans_simple hrest (fun _ => by rw [hk]; rfl) (Parser.reads_equation (hexpr true) hkind)
      (fun e he => ItemKind.unmarked_equation he) fun _ _ _ _ => trivial
  · rename_i hk
    exact scans_simple hrest (fun _ => by rw [hk]; rfl)
      (Parser.reads_wordItem v levels scope hrest hk)
      (fun k hk => hk) (Parser.isSimple_wordItem v levels scope t.text)
  · refine scans_refused _ _ fun hc => ?_
    rw [← Cursor.here_cons hrest]
    exact hc.here
  · rename_i hdirective _ _ _ _ _
    refine .ite (fun hbrace => scans_nested fun next hnext => ?_) fun _ => .ite (fun hstart => ?_)
      fun _ => scans_unexpected _ scope
    · rw [Bool.and_eq_true, beq_iff_eq] at hbrace
      exact .some (scans_block (collects_body hdeeper hnext { scope with body := .delimited } _) id
        hrest hbrace.1)
    · refine scans_simple hrest (fun _ => ?_) (hexpr false _)
        (fun e he => ItemKind.unmarked_expr he) fun _ _ _ _ => trivial
      cases hk : t.kind with
      | directive word => exact absurd hk (hdirective word)
      | _ => rfl

/-- The kind of an item, at any token. -/
theorem scans_itemKind (scope : Scope) :
    Scans L (itemKind v levels deeper scope) r (SoundKind? L scope.inMacro) := by
  refine .cursor_bind ?_
  split
  · exact scans_unexpected _ scope
  · rename_i t hpeek
    obtain ⟨ts, hrest⟩ := Cursor.peek?_eq_some hpeek
    refine .ite (fun hsite => .some (scans_site (fun r hmember => ?_) hrest hsite))
      fun _ => scans_leaf v levels hdeeper scope hrest
    refine scans_located (.cursor_bind ?_)
    split
    · rename_i hpeek
      rw [isAtMember, hpeek] at hmember
      cases hmember
    · rename_i t hpeek
      obtain ⟨ts, hrest⟩ := Cursor.peek?_eq_some hpeek
      exact scans_leaf v levels hdeeper { scope with body := .siteBody } hrest

end Level

/-- An item, at any level of nesting. -/
theorem scans_item (v : Vocabulary) (levels : Nat) (scope : Scope) (r : Reading) :
    Scans L (item v levels scope) r (SoundItem L scope.inMacro) := by
  induction levels generalizing scope r with
  | zero => exact scans_located (scans_itemKind v 0 (by simp) scope)
  | succ levels ih =>
    refine scans_located (scans_itemKind v (levels + 1) ?_ scope)
    rintro next ⟨⟩ scope r
    exact ih scope r

end ItemParser

end ControlFile
