import ControlFile.Proofs.Item.EchoList

/-!
# Bodies and sites are read back

The items of a body end where a token says so, and the members of a site where none follows.  Both can
be told from how the rest starts, so both are loops in the sense of `ItemParser.Loop`.
-/

namespace ControlFile

open Lexer Lexeme

theorem Lexeme.Alike.nil_iff {src out : List Lexeme} (h : Alike src out) : src = [] ↔ out = [] := by
  have hnil : ∀ {ls : List Lexeme}, lead ls = .nothing → ls = [] := by
    intro ls hl
    cases ls with
    | nil => rfl
    | cons l ls =>
      by_cases hnum : lead (l :: ls) = .number
      · rw [hl] at hnum
        cases hnum
      · obtain ⟨-, ⟨-, hlead⟩ | hlead⟩ := lead_of_ne_number hnum <;>
          · rw [hl] at hlead
            cases hlead
  refine ⟨?_, ?_⟩
  · rintro rfl
    exact hnil (h.resolve_right (by simp [lead])).symm
  · rintro rfl
    exact hnil (h.resolve_right (by simp [Lexeme.startsMinusNumber]))

namespace ItemParser

variable {v : Vocabulary} {levels : Nat} {c c' : Cursor}

/-! ### The items of a body -/

section Items

variable {one : ItemParser (Option Item)} {stop : TokenKind → Bool}

/-- Nothing more is read where `stop` holds, and at the end of the text. -/
def Stopped (stop : TokenKind → Bool) (c : Cursor) : Prop := ∀ kind, c.kind? = some kind → stop kind = true

theorem get_bind_run {α : Type} (f : Reading → StateM Reading α) (r : Reading) :
    (get >>= f) r = f r r := rfl

theorem items_stopped (h : Stopped stop c) (limit : Nat) : RunsAll (items one stop limit) c [] c := by
  cases limit with
  | zero => rfl
  | succ limit =>
    rw [RunsAll, items, get_bind_run]
    dsimp only
    cases hk : c.kind? with
    | none => rfl
    | some kind =>
      dsimp only
      rw [if_pos (h kind hk)]
      rfl

/-- Behind the first item. -/
theorem items_succ (h : ¬Stopped stop c) (limit : Nat) : items one stop (limit + 1) ⟨c, []⟩ = (do
    let item ← attempt one
    if (← get).cursor.rest.length = c.rest.length then modify Reading.advance
    return item.toList ++ (← items one stop limit) : StateM Reading (List Item)) ⟨c, []⟩ := by
  unfold Stopped at h
  push Not at h
  obtain ⟨kind, hk, hstop⟩ := h
  rw [items, get_bind_run]
  dsimp only
  rw [hk]
  dsimp only
  rw [if_neg hstop]

theorem loop_items (hstop : Telling stop) (hone : Retains one) :
    Loop one (Stopped stop) (items one stop) where
  nil h kind hk := by
    rw [Cursor.kind?_eq, h] at hk
    cases hk
  alike {c d} h := by
    have hiff : ∀ c : Cursor, Stopped stop c ↔
        c.lexemes = [] ∨ ((Lexeme.kind? c.lexemes).map stop).getD false = true := by
      intro c
      unfold Stopped
      rw [Cursor.kind?_eq]
      cases c.lexemes <;> simp
    rw [hiff, hiff, h.nil_iff, h.asks hstop]
  stop := items_stopped
  first {limit c c' is} hd hrun := by
    have hrun' := (items_succ hd limit).symm.trans hrun
    obtain ⟨o, c₁, ho, -⟩ := RunsAll.of_bind hrun' fun o => .get_bind fun r => by
      have hrest : RetainsAll (do return o.toList ++ (← items one stop limit)) :=
        (retains_items hone stop limit).bind fun _ => .pure _
      exact .ite (.bind (fun _ h => h) fun _ => hrest) hrest
    exact ⟨o, c₁, runs_attempt.1 ho⟩
  step {i limit c c₁} hd hrun hpasses := by
    rw [items_succ hd limit]
    have hshort : ¬c₁.rest.length = c.rest.length := by
      have := hpasses.shorter
      rw [Cursor.length_lexemes, Cursor.length_lexemes] at this
      omega
    have hattempt : attempt one ⟨c, []⟩ = (some i, ⟨c₁, []⟩) := runs_attempt.2 hrun
    change (do
      if (← get).cursor.rest.length = c.rest.length then modify Reading.advance
      return (attempt one ⟨c, []⟩).1.toList ++ (← items one stop limit) : StateM Reading (List Item))
        (attempt one ⟨c, []⟩).2 = _
    rw [hattempt]
    change (if c₁.rest.length = c.rest.length then _ else _ : StateM Reading (List Item)) ⟨c₁, []⟩ = _
    rw [if_neg hshort]
    rfl

/-- **The items of a body are read back.** -/
theorem echoesAll_allItems (hstop : Telling stop) (hone : Retains one)
    (hecho : ∀ c : Cursor, c.FromText → EchoesItem one c) : EchoesAll (allItems one stop) := by
  intro c hc is c' hrun
  obtain ⟨ls, hall, hagain⟩ := (loop_items hstop hone).echoes (fun c hc _ => hecho c hc) c.rest.length hc
    (Nat.le_of_eq (Cursor.length_lexemes c)) hrun
  exact ⟨ls, hall, fun hsep d => hagain hsep d.rest.length d (Nat.le_of_eq (Cursor.length_lexemes d))⟩

end Items

/-! ### Sites -/

theorem isAtMember_eq (c : Cursor) : isAtMember c = (lead c.lexemes).isMember := by
  match hrow : c.lexemes with
  | [] =>
    have hrest : c.rest = [] := by simpa [Cursor.lexemes] using hrow
    rw [isAtMember, Cursor.peek?, hrest]
    rfl
  | l :: ls =>
    obtain ⟨t, ht, rfl⟩ := Cursor.peek?_zero hrow
    rw [isAtMember, ht, Cursor.isAtCall_eq, hrow]
    dsimp only
    cases hk : t.kind with
    | ident =>
      have htl : t.lexeme = ⟨.ident, t.text, t.spaced⟩ := by rw [Token.lexeme, hk]
      rw [htl, lead_ident]
      rfl
    | directive d =>
      have htl : t.lexeme = ⟨.directive d, t.text, t.spaced⟩ := by rw [Token.lexeme, hk]
      rw [htl, lead_of_kind _ rfl (by simp) (by simp)]
      cases d with
      | chain f w => cases w <;> rfl
      | _ => rfl
    | _ =>
      rw [lead, Token.kind_lexeme, hk]
      cases startsMinusNumber (t.lexeme :: ls) <;> rfl

theorem members_done {one : ItemParser (Option Item)} (h : isAtMember c = false) (limit : Nat) :
    RunsAll (members one limit) c [] c := by
  cases limit with
  | zero => rfl
  | succ limit =>
    change (if isAtMember c then _ else return [] : StateM Reading (List Item)) ⟨c, []⟩ = _
    rw [h, if_neg Bool.false_ne_true]
    rfl

theorem members_succ {one : ItemParser (Option Item)} (h : isAtMember c = true) (limit : Nat) :
    members one (limit + 1) ⟨c, []⟩ = (do
      let item ← attempt one
      if (← get).cursor.rest.length = c.rest.length then return item.toList
      else return item.toList ++ (← members one limit) : StateM Reading (List Item)) ⟨c, []⟩ := by
  change (if isAtMember c then _ else return [] : StateM Reading (List Item)) ⟨c, []⟩ = _
  rw [h, if_pos rfl]

theorem loop_members {one : ItemParser (Option Item)} (hone : Retains one) :
    Loop one (fun c => isAtMember c = false) (members one) where
  nil h := by
    rw [isAtMember_eq, h]
    rfl
  alike h := by
    rw [isAtMember_eq, isAtMember_eq, h.congr Lead.isMember rfl]
  stop := members_done
  first {limit c c' is} hd hrun := by
    rw [Bool.not_eq_false] at hd
    have hrun' := (members_succ hd limit).symm.trans hrun
    obtain ⟨o, c₁, ho, -⟩ := RunsAll.of_bind hrun' fun o => .get_bind fun r =>
      .ite (.pure _) ((retains_members hone limit).bind fun _ => .pure _)
    exact ⟨o, c₁, runs_attempt.1 ho⟩
  step {i limit c c₁} hd hrun hpasses := by
    rw [Bool.not_eq_false] at hd
    rw [members_succ hd limit]
    have hshort : ¬c₁.rest.length = c.rest.length := by
      have := hpasses.shorter
      rw [Cursor.length_lexemes, Cursor.length_lexemes] at this
      omega
    have hattempt : attempt one ⟨c, []⟩ = (some i, ⟨c₁, []⟩) := runs_attempt.2 hrun
    change (do
      if (← get).cursor.rest.length = c.rest.length then return (attempt one ⟨c, []⟩).1.toList
      else return (attempt one ⟨c, []⟩).1.toList ++ (← members one limit) : StateM Reading (List Item))
        (attempt one ⟨c, []⟩).2 = _
    rw [hattempt]
    change (if c₁.rest.length = c.rest.length then _ else _ : StateM Reading (List Item)) ⟨c₁, []⟩ = _
    rw [if_neg hshort]
    rfl

/-- An item that starts with a token of its own. -/
theorem echoKind_behindToken {kind kind' : TokenKind} {word text : String}
    {row : Bool → List Lexeme} (hword : LexesAs kind word) (hkind : Parser.StartsAlone kind)
    (hkind' : Parser.StartsAlone kind') (hlead : leading kind' = leading kind)
    (hk : Lexeme.kind? c.lexemes = some kind') (hsuffix : c'.lexemes <:+ c.advance.lexemes)
    (h : Prints text row) {k : ItemKind} (htext : k.render = word ++ " " ++ text) :
    EchoKind k (fun s => ⟨kind, word, s⟩ :: row true) c c' := by
  obtain ⟨text', s, ls, hrow⟩ := Cursor.exists_of_kind? hk
  refine ⟨htext ▸ Parser.echo_behindToken hword hkind hkind' hlead hrow hsuffix h, fun t rs _ hm => ?_⟩
  rw [List.cons_append, startsMinusNumber_cons_of_ne hkind.2.2.1] at hm
  exact Bool.noConfusion hm

/-- **A site, with its members.** -/
theorem echoesKind_site {member : ItemParser (Option Item)} (hretains : Retains member)
    (hmember : ∀ c : Cursor, c.FromText → isAtMember c = true → EchoesItem member c) (hc : c.FromText)
    (hk : Lexeme.kind? c.lexemes = some (.keyword .site)) :
    EchoesKind (do return some (← site member)) c := by
  intro o c' hrun
  obtain ⟨k, c₁, hsite, hrun⟩ := hrun.of_bind fun _ => .pure _
  cases hrun
  obtain ⟨text, s, ls, hrow⟩ := Cursor.exists_of_kind? hk
  have hc₁ := hc.of_passes (Cursor.passes_advance hrow)
  unfold site at hsite
  rw [runs_cursor_bind, runs_advance_bind] at hsite
  obtain ⟨name, c₂, hname, hsite⟩ := hsite.of_bind fun name => by
    cases name with
    | none => exact .throw _
    | some n =>
      exact .bind .cursor fun _ => .bind (.of_all (retains_members hretains _)) fun _ => .pure _
  cases name with
  | none => cases hsite
  | some n =>
    rw [runs_cursor_bind] at hsite
    obtain ⟨is, c₃, hmembers, hsite⟩ := hsite.of_bind fun _ => .pure _
    cases hsite
    obtain ⟨row, hpasses, hprints, -, hreads⟩ := Parser.echoes_freeWord? hc₁ (fun kind h => by
      cases kind <;> simp_all [TokenKind.isNumber, TokenKind.isAssign]) _ c₂ (runs_lift.1 hname) n rfl
    obtain ⟨ls, hall, hagain⟩ := (loop_members hretains).echoes
      (fun c hc hd => hmember c hc (by simpa using hd)) c₂.rest.length (hc₁.of_passes hpasses)
      (Nat.le_of_eq (Cursor.length_lexemes c₂)) (runs_liftAll.1 hmembers)
    have hword : LexesAs (.keyword .site) "site" := Parser.lexesAs_keyword .site
    have halone := Parser.startsAlone_keyword .site
    have htext : (ItemKind.site n is).render = "site" ++ " " ++ (n ++ Item.renderSpaced is) := by
      have hsplit : "site " = "site" ++ " " := rfl
      change "site " ++ n ++ Item.renderSpaced is = _
      rw [hsplit]
      simp only [String.append_assoc]
    refine ⟨_, _, rfl, echoKind_behindToken hword halone halone rfl hk
      (hall.suffix.trans hpasses.suffix) (hprints.trails hall.prints.trails) htext, ?_⟩
    intro hsep t rs d hrs hopen hd
    rw [List.cons_append, List.append_assoc] at hd
    have hfollows := hall.follows rs hrs
    obtain ⟨_, d₂, hrun₂, rfl, hd₂⟩ := hreads true _ d.advance hfollows.spaced (Cursor.lexemes_advance hd)
    obtain ⟨js, d₃, hrun₃, hjs, hd₃⟩ := hagain hsep d₂.rest.length d₂
      (Nat.le_of_eq (Cursor.length_lexemes d₂)) rs hrs hopen hd₂
    have hagain : Runs (site member) d (.site n js) d₃ := by
      unfold site
      rw [runs_cursor_bind, runs_advance_bind]
      exact (runs_lift.2 hrun₂).bind (runs_cursor_bind.2 ((runs_liftAll.2 hrun₃).bind rfl))
    exact ⟨.site n js, d₃, hagain.bind rfl, congrArg (ItemKind.site n) hjs, hd₃⟩

end ItemParser

end ControlFile
