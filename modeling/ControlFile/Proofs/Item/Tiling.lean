import ControlFile.Proofs.Item.Places
import ControlFile.Proofs.Item.Text

/-!
# Items tile the text

Items stand at the tokens that are consumed for them.  So the items of a text, and those in a body, do
not overlap, and the parts of an item lie in it (`Item.Encloses`).  Where nothing is reported no token is
skipped: each stands in one of the items (`Parsed.items_tile`).

The parsers of one level are treated for any parser of the next level, as in
`ControlFile.Proofs.Item.Consumption`, which is where that they make progress is shown.
-/

namespace ControlFile

/-- The items stand at the tokens, one behind the other. -/
def LaysItems (ts : List Token) (is : List Item) : Prop :=
  Token.Lays ts (is.map (·.range)) (∀ i ∈ is, i.Everywhere Item.Encloses)

theorem LaysItems.nil (ts : List Token) : LaysItems ts [] := Token.Lays.nil ts (List.forall_mem_nil _)

theorem LaysItems.append {ts us : List Token} {is js : List Item} (h : LaysItems ts is)
    (h' : LaysItems us js) : LaysItems (ts ++ us) (is ++ js) := by
  unfold LaysItems
  rw [List.map_append]
  exact (Token.Lays.append h h').imp fun h => List.forall_mem_append.2 h

/-- The items in an item, all of them placed. -/
theorem LaysItems.allEverywhere {ts : List Token} {is : List Item} (h : LaysItems ts is) :
    Token.Lays ts (is.map (·.range)) (Item.AllEverywhere Item.Encloses is) :=
  h.imp Item.allEverywhere_iff.2

/-- Items of which, if nothing is reported, some have been read, and which then leave no token out. -/
structure TilesItems (ts : List Token) (ds : List Diagnostic) (is : List Item) : Prop where
  lays : LaysItems ts is
  tiled : ds = [] → Token.Tiled ts (is.map (·.range))

theorem TilesItems.nil : TilesItems [] [] [] := ⟨.nil _, fun _ => .nil⟩

theorem TilesItems.append {ts us : List Token} {ds es : List Diagnostic} {is js : List Item}
    (h : TilesItems ts ds is) (h' : TilesItems us es js) :
    TilesItems (ts ++ us) (ds ++ es) (is ++ js) where
  lays := h.lays.append h'.lays
  tiled hds := by
    obtain ⟨rfl, rfl⟩ := List.append_eq_nil_iff.1 hds
    rw [List.map_append]
    exact (h.tiled rfl).append (h'.tiled rfl)

namespace ItemParser

variable {α β : Type} {L : Nat} {r : Reading}

/-! ### Steps without parts -/

namespace Scans

variable {p : ItemParser α} {f : α → ItemParser β}
variable {P P' : List Token → List Diagnostic → α → Reading → Prop}

/-- A parser does one thing only. -/
theorem and (h : Scans L p r P) (h' : Scans L p r P') :
    Scans L p r fun ts ds a r' => P ts ds a r' ∧ P' ts ds a r' := by
  intro hc
  have hp := h hc
  have hp' := h' hc
  cases hrun : p r with
  | error d r' =>
    rw [hrun] at hp
    exact hp
  | ok a r' =>
    rw [hrun] at hp hp'
    obtain ⟨ts, ds, hmoves, ha⟩ := hp
    obtain ⟨ts', ds', hmoves', ha'⟩ := hp'
    obtain rfl : ts = ts' :=
      List.append_cancel_right (hmoves.cursor.rest.symm.trans hmoves'.cursor.rest)
    obtain rfl : ds = ds' := List.append_cancel_left (hmoves.reported.symm.trans hmoves'.reported)
    exact ⟨ts, ds, hmoves, ha, ha'⟩

/-- Nothing has a place in what is consumed first. -/
theorem skip {rs : β → List Extent} {F : β → Prop} (hp : Scans L p r P)
    (hf : ∀ a r', Scans L (f a) r' fun ts _ b _ => Token.Lays ts (rs b) (F b)) :
    Scans L (p >>= f) r fun ts _ b _ => Token.Lays ts (rs b) (F b) :=
  hp.bind fun a r' us _ _ _ => (hf a r').mono fun _ _ _ _ _ h => h.behind us

theorem lift_skip {p : Parser α} {Q : List Token → α → Prop} {rs : β → List Extent} {F : β → Prop}
    (hp : Parser.Reads L p r.cursor Q)
    (hf : ∀ a r', Scans L (f a) r' fun ts _ b _ => Token.Lays ts (rs b) (F b)) :
    Scans L (liftM p >>= f) r fun ts _ b _ => Token.Lays ts (rs b) (F b) := (lift hp).skip hf

theorem advance_any : Scans L ItemParser.advance r fun _ _ _ _ => True := by
  obtain ⟨ts, hts⟩ := Cursor.Moves.exists_advance r.cursor
  exact fun _ => ⟨ts, [], .of_cursor hts, trivial⟩

end Scans

/-! ### Sequences -/

/-- What is read of an item at any place. -/
def LaysOption (ts : List Token) (o : Option ItemKind) : Prop := ∀ k ∈ o, k.Lays ts

/-- An item that is read, or skipped and reported. -/
structure TilesOption (ts : List Token) (ds : List Diagnostic) (o : Option Item) : Prop extends
    TilesItems ts ds o.toList where
  consumed : ds = [] → ts ≠ []

/-- **An item stands at what is consumed for it.** -/
theorem tiles_located {free : Bool} {kind : ItemParser (Option ItemKind)}
    (hsound : Scans L kind r (SoundKind? L free))
    (hkind : Scans L kind r fun ts _ o _ => LaysOption ts o) :
    Scans L (located kind) r fun ts ds o _ => TilesOption ts ds o := by
  refine .cursor_bind ((hsound.and hkind).bind fun o r' us es hmoves h => ?_)
  obtain ⟨hsound, hlays⟩ := h
  cases o with
  | none =>
    refine .pure ?_
    rw [List.append_nil, List.append_nil]
    have hes : es ≠ [] := fun hes => by
      obtain ⟨k, hk, -⟩ := hsound.confined hes
      cases hk
    exact ⟨⟨.nil us, fun h => absurd h hes⟩, fun h => absurd h hes⟩
  | some k =>
    refine .cursor_bind (.pure ?_)
    rw [List.append_nil, List.append_nil]
    have hus : us ≠ [] := hsound.consumed (.inr rfl)
    rw [← hmoves.cursor.hull_eq hus]
    refine ⟨⟨((hlays k rfl).whole hus).imp fun h => ?_, fun _ => .single hus⟩, fun _ => hus⟩
    obtain ⟨hparts, hcalls, hnested⟩ := h
    exact List.forall_mem_singleton.2 (Item.everywhere_iff.2 ⟨⟨hparts, hcalls⟩, hnested⟩)

theorem tiles_attempt {one : ItemParser (Option Item)}
    (hone : Scans L one r fun ts ds o _ => TilesOption ts ds o) :
    Collects L (attempt one) r fun ts ds o _ => TilesOption ts ds o := by
  intro hc
  have h := hone hc
  unfold attempt
  cases hrun : one r with
  | ok o r' =>
    rw [hrun] at h
    exact h
  | error d r' =>
    rw [hrun] at h
    obtain ⟨⟨ts, ds, hmoves⟩, hd⟩ := h
    obtain ⟨us, hus⟩ := exists_moves_recover r'.cursor
    have hrecover : Reading.Moves L r' us [d] { r'.report d with cursor := r'.cursor.recover } :=
      ⟨hus, rfl, by simpa using hd⟩
    exact ⟨_, _, hmoves.trans hrecover, ⟨⟨.nil _, by simp⟩, by simp⟩⟩

section Sequences

variable {one : ItemParser (Option Item)}

theorem tiles_items (hone : ∀ r, Scans L one r fun ts ds o _ => TilesOption ts ds o)
    (stop : TokenKind → Bool) (limit : Nat) (r : Reading) :
    Collects L (items one stop limit) r fun ts ds is _ => TilesItems ts ds is := by
  induction limit generalizing r with
  | zero => exact .pure .nil
  | succ limit ih =>
    refine .get_bind ?_
    split
    · exact .pure .nil
    · rename_i k hkind
      split
      · exact .pure .nil
      · refine .bind (tiles_attempt (hone r)) fun o r' us es hmoves ho => .get_bind ?_
        split
        · rename_i hstuck
          -- Nothing has been consumed, so there is a report: the token is skipped.
          have hlength := hmoves.cursor.length_rest
          have hus : us = [] := List.length_eq_zero_iff.1 (by omega)
          have hes : es ≠ [] := fun hes => ho.consumed hes hus
          obtain ⟨t, ts, hrest, -⟩ := Cursor.exists_cons hkind
          obtain ⟨u, vs, hrest'⟩ : ∃ u vs, r'.cursor.rest = u :: vs :=
            List.exists_cons_of_length_pos (by rw [hstuck, hrest]; simp)
          refine .advance_bind hrest' (.bind (ih r'.advance) fun is r'' ws ds _ his => .pure ?_)
          have hskipped : TilesItems (us ++ [u]) es o.toList :=
            ⟨Token.Lays.before ho.lays [u], fun h => absurd h hes⟩
          have h := hskipped.append his
          rw [List.append_assoc] at h
          rw [List.append_nil, List.append_nil]
          exact h
        · refine .bind (ih r') fun is r'' ws ds _ his => .pure ?_
          rw [List.append_nil, List.append_nil]
          exact ho.toTilesItems.append his

theorem tiles_allItems (hone : ∀ r, Scans L one r fun ts ds o _ => TilesOption ts ds o)
    (stop : TokenKind → Bool) (r : Reading) :
    Collects L (allItems one stop) r fun ts ds is _ => TilesItems ts ds is :=
  .get_bind (tiles_items hone stop _ r)

theorem lays_members
    (hone : ∀ r, isAtMember r.cursor = true → Scans L one r fun ts ds o _ => TilesOption ts ds o)
    (limit : Nat) (r : Reading) :
    Collects L (members one limit) r fun ts _ is _ => LaysItems ts is := by
  induction limit generalizing r with
  | zero => exact .pure (.nil _)
  | succ limit ih =>
    refine .get_bind ?_
    split
    · rename_i hmember
      refine .bind (tiles_attempt (hone r hmember)) fun o r' us es _ ho => .get_bind ?_
      split
      · refine .pure ?_
        rw [List.append_nil]
        exact ho.lays
      · refine .bind (ih r') fun is r'' vs ds _ his => .pure ?_
        rw [List.append_nil]
        exact ho.lays.append his
    · exact .pure (.nil _)

end Sequences

/-! ### Sites -/

theorem lays_site {member : ItemParser (Option Item)}
    (hmember : ∀ r, isAtMember r.cursor = true →
      Scans L member r fun ts ds o _ => TilesOption ts ds o) (r : Reading) :
    Scans L (site member) r fun ts _ k _ => k.Lays ts := by
  refine .assume fun hc => ?_
  refine .cursor_bind (.skip .advance_any fun _ r₁ => ?_)
  refine .lift_skip (Parser.reads_freeWord? fun k hk => freeWord_starts hk) fun n r₂ => ?_
  cases n with
  | none => exact .throw fun _ => Extent.inside_emptyAt hc.here.2
  | some n =>
    refine .cursor_bind (.bind (.of_collects (lays_members hmember _ r₂)) fun is r' us es _ his => ?_)
    refine .pure ?_
    rw [List.append_nil]
    exact his.allEverywhere.imp fun h => ⟨trivial, h⟩

/-! ### Conditionals -/

/-- A branch with a condition, and those behind it. -/
theorem lays_branch {ts us vs : List Token} {condition : Condition} {is : List Item} {rest : Chain}
    (hcondition : Token.Lays ts condition.places condition.CallsPlaced) (his : LaysItems us is)
    (hrest : Token.Lays vs rest.places (rest.CallsPlaced ∧ rest.Everywhere Item.Encloses)) :
    Token.Lays (ts ++ (us ++ vs)) (Chain.branch condition is rest).places
      ((Chain.branch condition is rest).CallsPlaced ∧
        (Chain.branch condition is rest).Everywhere Item.Encloses) :=
  (hcondition.append (his.allEverywhere.append hrest)).imp fun ⟨h, h₁, h₂, h₃⟩ => ⟨⟨h, h₂⟩, h₁, h₃⟩

section Conditionals

variable {expr : Parser Expr} {body : StateM Reading (List Item)}
variable (hexpr : ∀ c, Parser.Reads L expr c fun ts e => Token.Lays ts e.places e.CallsPlaced)
variable (hbody : ∀ r, Collects L body r fun ts _ is _ => LaysItems ts is)
include hexpr hbody

theorem lays_laterBranches {opening : Opening} (hinside : opening.range.Inside L) (limit : Nat)
    (r : Reading) : Scans L (laterBranches opening expr body limit) r fun ts _ chain _ =>
      Token.Lays ts chain.places (chain.CallsPlaced ∧ chain.Everywhere Item.Encloses) := by
  have hclose := fun r => scans_closeChain (r := r) hinside false (by simp)
  induction limit generalizing r with
  | zero => exact .pure (.nil _ ⟨trivial, trivial⟩)
  | succ limit ih =>
    have hdone : Scans L (do closeChain opening; return Chain.done) r fun ts _ chain _ =>
        Token.Lays ts chain.places (chain.CallsPlaced ∧ chain.Everywhere Item.Encloses) :=
      .skip (hclose r) fun _ _ => .pure (.nil _ ⟨trivial, trivial⟩)
    refine .cursor_bind ?_
    split
    · refine .ite (fun _ => .skip .advance_any fun _ r₁ => .lift_bind (Parser.lays_exprCondition hexpr
        r₁.cursor) fun condition r₂ ts _ hcondition => .bind (.of_collects (hbody r₂))
        fun is r₃ us _ _ his => .bind (ih r₃) fun rest r₄ vs _ _ hrest => .pure ?_) fun _ => hdone
      rw [List.append_nil]
      exact lays_branch hcondition his hrest
    · refine .ite (fun _ => .skip .advance_any fun _ r₁ => .bind (.of_collects (hbody r₁))
        fun is r₂ us _ _ his => .bind (hclose r₂) fun _ r₃ vs _ _ _ => .pure ?_) fun _ => hdone
      rw [List.append_nil]
      exact (his.allEverywhere.before vs).imp fun h => ⟨trivial, h⟩
    · exact hdone

theorem lays_conditional (family : Family) (word : DirectiveWord) (r : Reading) :
    Scans L (conditional family word expr body) r fun ts _ k _ => k.Lays ts := by
  refine .assume fun hc => ?_
  refine .cursor_bind (.lift_bind (Parser.lays_openingCondition hexpr word r.cursor)
    fun condition r₁ ts _ hcondition => ?_)
  refine .bind (.of_collects (hbody r₁)) fun is r₂ us _ _ his => ?_
  refine .cursor_bind (.bind (lays_laterBranches hexpr hbody hc.here _ r₂) fun rest r₃ vs _ _ hrest =>
    .pure ?_)
  rw [List.append_nil]
  exact lays_branch hcondition his hrest

end Conditionals

/-! ### Macros and blocks -/

section Bodies

variable {body : StateM Reading (List Item)}
variable (hbody : ∀ r, Collects L body r fun ts _ is _ => LaysItems ts is)
include hbody

theorem lays_macroDecl (isList : Bool) (r : Reading) :
    Scans L (macroDecl isList body) r fun ts _ k _ => k.Lays ts := by
  have hbehind : ∀ (signatures : List Signature) us r,
      Token.Lays us (signatures.map (·.range)) True → Scans L (do
        let opening := (← cursor).here
        Parser.expect (.mark .openBrace) .bodyStart
        let items ← body
        if !(← takeIf (.mark .closeBrace)) then report ⟨.unclosedMacro, opening⟩
        return ItemKind.macroDecl isList signatures items) r fun ts _ k _ => k.Lays (us ++ ts) := by
    intro signatures us r hus
    refine .assume fun hc => ?_
    refine .cursor_bind (.lift_bind (Parser.Reads.expect_token _ _) fun _ r₁ vs _ _ => ?_)
    refine .bind (.of_collects (hbody r₁)) fun is r₂ bs _ _ his => ?_
    refine .bind (scans_takeIf rfl) fun b r₃ ws _ _ _ => ?_
    have hkind : (ItemKind.macroDecl isList signatures is).Lays (us ++ (vs ++ (bs ++ ws))) :=
      (hus.append ((his.allEverywhere.before ws).behind vs)).imp fun h => ⟨trivial, h.2⟩
    refine .ite (fun _ => .report_bind (fun _ => hc.here) (.pure ?_)) fun _ => .pure ?_
    · rwa [List.append_nil]
    · rwa [List.append_nil]
  refine .skip .advance_any fun _ r₁ => .ite (fun _ => ?_) fun _ => ?_
  · exact .cursor_bind (.lift_bind (Parser.lays_signatures _ r₁.cursor)
      fun signatures r₂ us _ hus => hbehind signatures us r₂ hus)
  · exact .lift_bind (Parser.lays_signature r₁.cursor)
      fun signature r₂ us _ hus => hbehind [signature] us r₂ hus

theorem lays_block (r : Reading) : Scans L (block body) r fun ts _ k _ => k.Lays ts := by
  refine .assume fun hc => ?_
  refine .cursor_bind (.skip .advance_any fun _ r₁ => ?_)
  refine .bind (.of_collects (hbody r₁)) fun is r₂ us _ _ his => ?_
  refine .bind (scans_takeIf rfl) fun b r₃ vs _ _ _ => ?_
  refine .ite (fun _ => .pure ?_) fun _ => .throw fun _ => hc.here
  rw [List.append_nil]
  exact (his.allEverywhere.before vs).imp fun h => ⟨trivial, h⟩

end Bodies

/-! ### Items of one level -/

theorem LaysOption.none (ts : List Token) : LaysOption ts none := nofun

theorem LaysOption.some {ts : List Token} {k : ItemKind} (h : k.Lays ts) : LaysOption ts (some k) := by
  rintro _ ⟨⟩
  exact h

theorem lays_some {p : ItemParser ItemKind} (h : Scans L p r fun ts _ k _ => k.Lays ts) :
    Scans L (do return some (← p)) r fun ts _ o _ => LaysOption ts o := by
  refine h.bind fun k r' us _ _ hk => .pure ?_
  rw [List.append_nil]
  exact .some hk

/-- A statement without items in it. -/
theorem lays_statement {p : Parser α} {k : α → ItemKind}
    (h : Parser.Reads L p r.cursor fun ts a => (k a).Lays ts) :
    Scans L (do return some (k (← p)) : ItemParser (Option ItemKind)) r
      fun ts _ o _ => LaysOption ts o := by
  refine .lift_bind h fun a r' us _ ha => .pure ?_
  rw [List.append_nil]
  exact .some ha

theorem lays_unexpected (scope : Scope) :
    Scans L (unexpected scope) r fun ts _ o _ => LaysOption ts o := by
  refine .assume fun hc => ?_
  exact .cursor_bind (.report_bind (fun _ => hc.here) (.bind .advance_any fun _ _ _ _ _ _ => .pure
    (.none _)))

section Level

variable (v : Vocabulary) (levels : Nat) {deeper : Deeper}
variable (hdeeper : ∀ next ∈ deeper, ∀ scope r,
  Scans L (next scope) r fun ts ds o _ => TilesOption ts ds o)
include hdeeper

theorem lays_body {next : Scope → ItemParser (Option Item)} (hnext : next ∈ deeper) (scope : Scope)
    (stop : TokenKind → Bool) (r : Reading) :
    Collects L (allItems (next scope) stop) r fun ts _ is _ => LaysItems ts is := by
  intro hc
  obtain ⟨ts, ds, hmoves, his⟩ := tiles_allItems (hdeeper next hnext scope) stop r hc
  exact ⟨ts, ds, hmoves, his.lays⟩

theorem lays_directiveAnywhere (scope : Scope) (word : DirectiveWord) (r : Reading) :
    Scans L (directiveAnywhere v levels deeper scope word) r fun ts _ o _ => LaysOption ts o := by
  have hexpr := Parser.lays_expression (L := L) v levels
  have hconditional : ∀ family, Scans L (nested deeper fun next => do
      return some (← conditional family word (Parser.expression v (levels - 1) true)
        (allItems (next scope) endsBranch))) r fun ts _ o _ => LaysOption ts o :=
    fun family => scans_nested fun next hnext => lays_some
      (lays_conditional (Parser.lays_expression v (levels - 1) true)
        (lays_body hdeeper hnext scope endsBranch) family word r)
  unfold directiveAnywhere
  split
  · rename_i parse hparse
    refine lays_statement (k := .directive) ((Parser.lays_plainDirective? v levels hparse r.cursor).imp
      fun _ _ h => ?_)
    exact h.imp fun h => ⟨h, trivial⟩
  · split
    · exact hconditional _
    · exact hconditional _
    · exact hconditional _
    · exact hconditional _
    · exact hconditional _
    · refine .bind .advance_any fun _ r₁ _ _ _ _ => ?_
      refine .lift_bind (Parser.reads_name _) fun n _ _ _ _ => ?_
      exact .pure (.some (.nil _ ⟨trivial, trivial⟩))
    · refine lays_statement (k := .expr) ((hexpr false r.cursor).imp fun _ _ h => ?_)
      exact h.imp fun h => ⟨h, trivial⟩
    · refine .assume fun hc => ?_
      exact .cursor_bind (.report_bind (fun _ => hc.here) (.bind .advance_any fun _ _ _ _ _ _ => .pure
        (.none _)))
    · exact lays_unexpected scope

theorem lays_directive (scope : Scope) (word : DirectiveWord) (r : Reading) :
    Scans L (directive v levels deeper scope word) r fun ts _ o _ => LaysOption ts o := by
  refine .assume fun hc => ?_
  refine .cursor_bind (.bind (lays_directiveAnywhere v levels hdeeper scope word r)
    fun o r' us es _ ho => ?_)
  refine .ite (fun _ => .report_bind (fun _ => hc.here) (.pure (.none _))) fun _ => .pure ?_
  rw [List.append_nil]
  exact ho

theorem lays_macroItem (scope : Scope) (isList : Bool) (r : Reading) :
    Scans L (macroItem deeper scope isList) r fun ts _ o _ => LaysOption ts o := by
  refine .assume fun hc => ?_
  refine .cursor_bind (.bind (scans_nested fun next hnext => lays_macroDecl (lays_body hdeeper hnext _
    _) isList r) fun k r' us es _ hk => ?_)
  refine .ite (fun _ => .report_bind (fun _ => hc.here) (.pure (.none _))) fun _ => .pure ?_
  rw [List.append_nil]
  exact .some hk

theorem lays_leaf (scope : Scope) {t : Token} {ts : List Token} (hrest : r.cursor.rest = t :: ts) :
    Scans L (leaf v levels deeper scope t) r fun ts _ o _ => LaysOption ts o := by
  have hexpr := Parser.lays_expression (L := L) v levels
  unfold leaf
  dsimp only
  split
  · exact lays_statement (k := id) (Parser.lays_declaration (hexpr true) scope .prm r.cursor)
  · exact lays_statement (k := id) (Parser.lays_declaration (hexpr true) scope .localPrm r.cursor)
  · exact lays_statement (k := id) (Parser.lays_existing (hexpr true) r.cursor)
  · exact lays_macroItem hdeeper scope false r
  · exact lays_macroItem hdeeper scope true r
  · exact lays_directive v levels hdeeper scope _ r
  · exact lays_statement (k := .parameter) ((Parser.lays_markedParameter v r.cursor).imp
      fun _ _ h => h.imp fun h => ⟨h, trivial⟩)
  · exact lays_statement (k := .parameter) ((Parser.lays_markedParameter v r.cursor).imp
      fun _ _ h => h.imp fun h => ⟨h, trivial⟩)
  · exact lays_statement (k := .equation) ((Parser.lays_equation (hexpr true) _ r.cursor).imp
      fun _ _ h => h.imp fun h => ⟨h, trivial⟩)
  · exact lays_statement (k := id) (Parser.lays_wordItem v levels scope t.text r.cursor)
  · refine .assume fun hc => .report_bind (fun _ => ?_) (.bind .advance_any
      fun _ _ _ _ _ _ => .pure (.none _))
    rw [← Cursor.here_cons hrest]
    exact hc.here
  · refine .ite (fun _ => scans_nested fun next hnext => ?_) fun _ => .ite (fun _ => ?_)
      fun _ => lays_unexpected scope
    · exact lays_some (lays_block (lays_body hdeeper hnext { scope with body := .delimited } _) r)
    · exact lays_statement (k := .expr) ((hexpr false r.cursor).imp
        fun _ _ h => h.imp fun h => ⟨h, trivial⟩)

theorem lays_itemKind (hsound : ∀ next ∈ deeper, ∀ scope r,
      Scans L (next scope) r (SoundItem L scope.inMacro)) (scope : Scope) (r : Reading) :
    Scans L (itemKind v levels deeper scope) r fun ts _ o _ => LaysOption ts o := by
  refine .cursor_bind ?_
  split
  · exact lays_unexpected scope
  · rename_i t hpeek
    obtain ⟨ts, hrest⟩ := Cursor.peek?_eq_some hpeek
    refine .ite (fun _ => lays_some (lays_site (fun r hmember => ?_) r)) fun _ =>
      lays_leaf v levels hdeeper scope hrest
    obtain ⟨t, hpeek⟩ : ∃ t, r.cursor.peek? 0 = some t := by
      cases hpeek : r.cursor.peek? 0 with
      | none =>
        rw [isAtMember, hpeek] at hmember
        cases hmember
      | some t => exact ⟨t, rfl⟩
    obtain ⟨ts, hrest⟩ := Cursor.peek?_eq_some hpeek
    refine tiles_located (.cursor_bind (Q := SoundKind? L scope.inMacro) ?_) (.cursor_bind ?_)
    · rw [hpeek]
      exact scans_leaf v levels hsound { scope with body := .siteBody } hrest
    · rw [hpeek]
      exact lays_leaf v levels hdeeper { scope with body := .siteBody } hrest

end Level

/-- An item, at any level of nesting. -/
theorem tiles_item (v : Vocabulary) (levels : Nat) (scope : Scope) (r : Reading) :
    Scans L (item v levels scope) r fun ts ds o _ => TilesOption ts ds o := by
  induction levels generalizing scope r with
  | zero =>
    exact tiles_located (scans_itemKind v 0 (by simp) scope) (lays_itemKind v 0 (by simp) (by simp) scope r)
  | succ levels ih =>
    have hsound : ∀ next ∈ some (item v levels), ∀ scope r,
        Scans L (next scope) r (SoundItem L scope.inMacro) := by
      rintro next ⟨⟩ scope r
      exact scans_item v levels scope r
    refine tiles_located (scans_itemKind v (levels + 1) hsound scope)
      (lays_itemKind v (levels + 1) ?_ hsound scope r)
    rintro next ⟨⟩ scope r
    exact ih scope r

end ItemParser

namespace Parsed

variable (v : Vocabulary) (text : String)

/-- All tokens of a text are read, and the items stand at them. -/
theorem tilesItems_ofText : TilesItems (TokenStream.ofText text).tokens
    (itemsOf v (TokenStream.ofText text).tokens (byteLength text.toList)).2 (ofText v text).items := by
  obtain ⟨r', -, -, htiles⟩ := exists_of_collects v text (ItemParser.tiles_allItems
    (ItemParser.tiles_item v maxNesting ⟨.topLevel, false⟩) (fun _ => false) ⟨start text, []⟩)
  exact htiles

/-- **Items tile the text.**  The items of a text are disjoint stretches of it, in their order, and so
are the parts of each item at any depth; every diagnostic is about a stretch of the text; and where
nothing is reported, each significant token stands in exactly one item. -/
theorem items_tile :
    Extent.Row 0 (byteLength text.toList) ((ofText v text).items.map (·.range)) ∧
    (∀ i ∈ (ofText v text).items, i.Everywhere Item.Encloses) ∧
    (∀ d ∈ (ofText v text).diagnostics, d.range.Inside (byteLength text.toList)) ∧
    ((ofText v text).diagnostics = [] → ∀ t ∈ (TokenStream.ofText text).tokens,
      (ofText v text).items.countP (fun i => i.range.Holds t.range) = 1) := by
  have htiles := tilesItems_ofText v text
  have hordered : Token.Ordered (TokenStream.ofText text).tokens :=
    (Token.ordered_ofText text).sublist List.filter_sublist
  refine ⟨⟨fun s hs => ?_, (htiles.lays.parts.row hordered).apart⟩, htiles.lays.placed hordered,
    diagnostics_inside v text, fun hnone t ht => ?_⟩
  · obtain ⟨i, hi, rfl⟩ := List.mem_map.1 hs
    have hnonempty := ((htiles.lays.parts.row hordered).inside _ hs).2.1
    have hinside : i.range.Inside (byteLength text.toList) := (items_inside v text i hi).self
    exact ⟨Nat.zero_le _, hnonempty, hinside.2⟩
  · have hok : (ofText v text).isOk = true := List.isEmpty_iff.2 hnone
    have hcount := (htiles.tiled (reported_of_isOk hok)).countP_eq_one hordered t ht
    rwa [List.countP_map] at hcount

/-- A macro with a call in a call in its body, and the brace that closes the body. -/
theorem items_tile_macro :
    let text := "macro m(a) \x7b f(g(a)) \x7d 1"
    let brace : Token := ⟨.mark .closeBrace, "\x7d", ⟨21, 22⟩, true⟩
    (ofText .standard text).diagnostics = [] ∧ brace ∈ (TokenStream.ofText text).tokens ∧
      Extent.Row 0 (byteLength text.toList) ((ofText .standard text).items.map (·.range)) ∧
      (∀ i ∈ (ofText .standard text).items, i.Everywhere Item.Encloses) ∧
      (ofText .standard text).items.countP (fun i => i.range.Holds brace.range) = 1 := by
  intro text brace
  have hnone : (ofText .standard text).diagnostics = [] :=
    List.isEmpty_iff.1 (by decide +kernel)
  have hbrace : brace ∈ (TokenStream.ofText text).tokens := by decide +kernel
  obtain ⟨hrow, hparts, -, hcount⟩ := items_tile .standard text
  exact ⟨hnone, hbrace, hrow, hparts, hcount hnone brace hbrace⟩

end Parsed

end ControlFile
