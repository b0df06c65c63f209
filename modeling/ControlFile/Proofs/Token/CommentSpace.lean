import ControlFile.Proofs.Expr.Displacement
import ControlFile.Proofs.Token.LongestMatch

/-!
# A blank in the place of a comment

A token that ends before a comment ends there as well if a blank stands in its place
(`Lexer.first_before_comment`), and what stands behind is cut as before, with space before it.  So all
tokens but the comment and the blanks around it stay, and only their places change: those behind the
comment move (`Lexer.widen`).

Tokens are *solid* if they are neither blanks nor closed comments.  What the parser reads and what is
reported of single tokens depends on the solid tokens alone (`TokenStream.ofTokens_solid`), so these are
displaced with them (`TokenStream.ofText_blanked`).
-/

namespace ControlFile

namespace Lexer

/-! ### Before a comment -/

/-- The text starts as a comment does. -/
def StartsComment (a : List Char) : Prop := a.head? = some '\x27' ∨ a.head? = some '/'

/-- A stretch that would go on behind `w` does not end with `w`. -/
theorem countWhile_lt {p : Char → Bool} {a w : List Char} {d : Char} (hd : a.head? = some d) (hp : p d = true)
    (h : countWhile p (w ++ a) ≤ w.length) : countWhile p (w ++ a) < w.length := by
  induction w with
  | nil =>
    obtain ⟨a, rfl⟩ := List.head?_eq_some_iff.1 hd
    rw [List.nil_append, countWhile_cons, if_pos hp] at h
    cases h
  | cons c w ih =>
    rw [List.cons_append, countWhile_cons] at h ⊢
    by_cases hc : p c = true
    · rw [if_pos hc, List.length_cons] at h ⊢
      have := ih (by omega)
      omega
    · rw [if_neg hc, List.length_cons]
      omega

/-- A comment that is closed inside `w`. -/
theorem commentLength?_append {w a : List Char} {n : Nat} (h : commentLength? (w ++ a) = some n)
    (hn : n ≤ w.length) (b : List Char) : commentLength? (w ++ b) = some n := by
  obtain ⟨body, rest, htext, rfl, hbody⟩ := commentLength?_eq_some_iff.1 h
  have hleft : body ++ ['*', '/'] <+: w ++ a := ⟨rest, by simp [htext]⟩
  have hprefix : body ++ ['*', '/'] <+: w :=
    List.prefix_of_prefix_length_le hleft ⟨a, rfl⟩ (by simpa using hn)
  obtain ⟨w', rfl⟩ := hprefix
  exact commentLength?_eq_some_iff.2 ⟨body, w' ++ b, by simp, rfl, hbody⟩

/-- Blanks and comments start with characters of their own. -/
theorem not_isTrivia_first {c : Char} {cs : List Char} (hspace : isSpace c = false)
    (hline : c ≠ '\x27') (hblock : ¬(c = '/' ∧ cs.head? = some '*')) :
    (first c cs).1.isTrivia = false := by
  have hcomment : ¬(c == '/' && decide (cs.head? = some '*')) = true := by simpa using hblock
  unfold first
  rw [if_neg (by simp [hspace]), if_neg (by simpa using hline), if_neg hcomment]
  split
  · unfold word
    dsimp only
    split <;> rfl
  split
  · unfold number
    dsimp only
    split <;> rfl
  split
  · rfl
  split
  · unfold string
    dsimp only
    split <;> rfl
  split
  · unfold directive
    split
    · split <;> rfl
    · rfl
  · unfold punctuation
    split
    · rename_i kind hkind
      split
      · unfold withEquals at hkind
        split at hkind <;> cases hkind <;> rfl
      · exact isTrivia_single c
    · exact isTrivia_single c

/-- **A token before a comment** is the same token before a blank. -/
theorem first_before_comment {c : Char} {w a b : List Char} (ha : StartsComment a) (hb : Closed b)
    (hspace : isSpace c = false) (h : (first c (w ++ a)).2 ≤ w.length) :
    first c (w ++ b) = first c (w ++ a) := by
  have hhead : ∀ {p : Char → Bool}, p '\x27' = true → p '/' = true →
      ∃ d, a.head? = some d ∧ p d = true := fun hline hblock =>
    ha.elim (fun h => ⟨_, h, hline⟩) fun h => ⟨_, h, hblock⟩
  by_cases hline : c = '\x27'
  · -- the line goes on behind `w`, unless it ends before
    subst hline
    obtain ⟨d, hd, hp⟩ := hhead (p := (· != '\n')) rfl rfl
    have hfirst : ∀ cs : List Char, first '\x27' cs = (.comment .line, countWhile (· != '\n') cs) :=
      fun _ => rfl
    rw [hfirst] at h
    rw [hfirst, hfirst, countWhile_append_of_lt b (countWhile_lt hd hp h)]
  by_cases hblock : c = '/' ∧ (w ++ a).head? = some '*'
  · obtain ⟨rfl, hstar⟩ := hblock
    cases w with
    | nil =>
      rw [List.nil_append] at hstar
      rcases ha with ha | ha
      · cases ha.symm.trans hstar
      · cases ha.symm.trans hstar
    | cons d w =>
      obtain rfl : d = '*' := Option.some.inj hstar
      rw [List.cons_append, first_of_comment] at h ⊢
      rw [List.cons_append, first_of_comment]
      cases hlength : commentLength? (w ++ a) with
      | none =>
        -- a comment that is not closed runs to the end
        obtain ⟨d, hd, -⟩ := hhead (p := fun _ => true) rfl rfl
        obtain ⟨a, rfl⟩ := List.head?_eq_some_iff.1 hd
        rw [hlength] at h
        simp only [List.length_append, List.length_cons] at h
        omega
      | some n =>
        rw [hlength] at h
        rw [commentLength?_append hlength (by simpa using h)]
  by_cases hquote : c = '\x22'
  · subst hquote
    obtain ⟨d, hd, hp⟩ := hhead (p := isQuotable) rfl rfl
    rw [first_of_quote] at h
    have hle : countWhile isQuotable (w ++ a) ≤ w.length := by
      split at h
      · exact Nat.le_of_succ_le h
      · exact h
    have hlt := countWhile_lt hd hp hle
    have hdrop : ∀ x, (w ++ x).drop (countWhile isQuotable (w ++ a)) =
        w.drop (countWhile isQuotable (w ++ a)) ++ x := fun x => List.drop_append_of_le_length hle
    have hne : w.drop (countWhile isQuotable (w ++ a)) ≠ [] := by
      rw [← List.length_pos_iff, List.length_drop]
      omega
    rw [first_of_quote, first_of_quote, countWhile_append_of_lt b hlt, hdrop, hdrop,
      List.head?_append_of_ne_nil _ hne, List.head?_append_of_ne_nil _ hne]
  · exact first_append hb w h (not_isTrivia_first hspace hline hblock) fun hc => absurd hc hquote

/-- What a comment starts with. -/
theorem startsComment {c : Char} {cs : List Char} {kind : CommentKind}
    (h : (first c cs).1 = .comment kind) (rest : List Char) : StartsComment (c :: rest) := by
  have hspace : isSpace c = false := by
    rw [← Bool.not_eq_true]
    intro hc
    rw [first_of_isSpace hc] at h
    cases h
  by_contra hother
  have htrivia := @not_isTrivia_first c cs hspace
    (fun hc => hother (.inl (congrArg some hc))) fun hc => hother (.inr (congrArg some hc.1))
  rw [h] at htrivia
  cases htrivia

end Lexer

/-! ### Solid tokens -/

/-- Neither blank nor a comment that is closed. -/
def TokenKind.isSolid : TokenKind → Bool
  | .blank | .comment _ => false
  | _ => true

namespace Lexer

/-- The solid tokens of a text. -/
def solids (offset : Nat) (spaced : Bool) (cs : List Char) : List Token :=
  (scan offset spaced cs).filter (·.kind.isSolid)

theorem solids_cons (offset : Nat) (spaced : Bool) (c : Char) (cs : List Char) :
    solids offset spaced (c :: cs) =
      [⟨(first c cs).1, String.ofList (c :: cs.take (first c cs).2),
        ⟨offset, offset + byteLength (c :: cs.take (first c cs).2)⟩, spaced⟩].filter (·.kind.isSolid) ++
      solids (offset + byteLength (c :: cs.take (first c cs).2)) (first c cs).1.isTrivia
        (cs.drop (first c cs).2) := by
  rw [solids, scan_cons, ← List.singleton_append, List.filter_append]
  rfl

theorem solids_cons_of_isSpace {c : Char} (hc : isSpace c = true) (offset : Nat) (spaced : Bool)
    (cs : List Char) :
    solids offset spaced (c :: cs) =
      solids (offset + byteLength (c :: cs.take (countWhile isSpace cs))) true
        (cs.drop (countWhile isSpace cs)) := by
  rw [solids_cons, first_of_isSpace hc]
  rfl

/-- A blank is space, and nothing else. -/
theorem solids_blank (offset : Nat) (spaced : Bool) {c : Char} (hc : isSpace c = true)
    (cs : List Char) : solids offset spaced (c :: cs) = solids (offset + c.utf8Size) true cs := by
  rw [solids_cons_of_isSpace hc]
  cases cs with
  | nil => rfl
  | cons d ds =>
    by_cases hd : isSpace d = true
    · rw [solids_cons_of_isSpace hd, countWhile_cons, if_pos hd]
      simp [Nat.add_assoc]
    · rw [countWhile_cons, if_neg hd]
      rfl

theorem solids_blanks {u : List Char} (hu : ∀ c ∈ u, isSpace c = true) (hne : u ≠ []) (offset : Nat)
    (spaced : Bool) (cs : List Char) :
    solids offset spaced (u ++ cs) = solids (offset + byteLength u) true cs := by
  induction u generalizing offset spaced with
  | nil => exact absurd rfl hne
  | cons c u ih =>
    obtain ⟨hc, hu⟩ := List.forall_mem_cons.1 hu
    rw [List.cons_append, solids_blank offset spaced hc]
    cases u with
    | nil => rfl
    | cons d u => rw [ih hu (by simp), byteLength_cons c, Nat.add_assoc]

/-- Tokens that are all behind a place move with it. -/
theorem map_displaced_scan {f : Nat → Nat} {n : Nat} (offset : Nat) (spaced : Bool) (cs : List Char)
    (hf : ∀ x, offset ≤ x → f x = x + n) :
    (scan offset spaced cs).map (·.displaced f) = scan (offset + n) spaced cs := by
  fun_induction scan offset spaced cs with
  | case1 => simp
  | case2 offset spaced c cs kind k heq text stop ih =>
    have hstop : offset ≤ stop := Nat.le_add_right ..
    rw [List.map_cons, ih fun x hx => hf x (Nat.le_trans hstop hx), scan_cons, heq]
    have hmoved : offset + n + byteLength text = stop + n := by omega
    simp only [Token.displaced, Extent.displaced, hf offset (Nat.le_refl _), hf stop hstop]
    rw [hmoved]

theorem map_displaced_solids {f : Nat → Nat} {n : Nat} (offset : Nat) (spaced : Bool) (cs : List Char)
    (hf : ∀ x, offset ≤ x → f x = x + n) :
    (solids offset spaced cs).map (·.displaced f) = solids (offset + n) spaced cs := by
  rw [solids, solids, ← map_displaced_scan offset spaced cs hf, List.filter_map]
  rfl

/-! ### A blank in the place of the comment -/

/-- Where the places of a text are if its blank at `start` is replaced by `length` bytes. -/
def widen (start length : Nat) (x : Nat) : Nat := if x ≤ start then x else x + (length - 1)

theorem widen_of_le {start length x : Nat} (h : x ≤ start) : widen start length x = x := if_pos h

theorem widen_of_lt {start length x : Nat} (h : start < x) :
    widen start length x = x + (length - 1) := if_neg (Nat.not_le.2 h)

theorem map_displaced_widen_of_le {start length : Nat} {ts : List Token}
    (h : ∀ t ∈ ts, t.range.start ≤ start ∧ t.range.stop ≤ start) :
    ts.map (·.displaced (widen start length)) = ts := by
  have hstay : ∀ t ∈ ts, t.displaced (widen start length) = t := by
    intro t ht
    obtain ⟨hstart, hstop⟩ := h t ht
    rw [Token.displaced, Extent.displaced, widen_of_le hstart, widen_of_le hstop]
  rw [List.map_congr_left hstay, List.map_id']

/-- Places keep their order. -/
theorem widen_le_iff {start length x y : Nat} : widen start length x ≤ widen start length y ↔ x ≤ y := by
  unfold widen
  split <;> split <;> omega

/-- What is solid where a comment starts stands behind it. -/
theorem solids_comment {t : Token} {kind : CommentKind} (hkind : t.kind = .comment kind)
    {post : List Token} {offset : Nat} {spaced : Bool} {cs : List Char}
    (h : scan offset spaced cs = t :: post) :
    ∃ right, cs = t.text.toList ++ right ∧ t.range.start = offset ∧ 0 < byteLength t.text.toList ∧
      solids offset spaced cs = solids (offset + byteLength t.text.toList) true right := by
  obtain ⟨right, rfl, hne, hrange, -, hpost⟩ := scan_eq_cons h
  refine ⟨right, rfl, by rw [hrange],
    Nat.lt_of_lt_of_le (List.length_pos_iff.2 hne) (length_le_byteLength _), ?_⟩
  rw [solids, h, List.filter_cons_of_neg (by simp [hkind, TokenKind.isSolid]), hpost, hrange, hkind]
  rfl

/-- **A blank in the place of a comment.**  The solid tokens are those of the text with the comment, at
the places that they have there.

By induction over the tokens before the comment: blanks run into the blank that is put in the place of
the comment, and every other token is cut as before. -/
theorem map_displaced_solids_blanked {t : Token} {kind : CommentKind} (hkind : t.kind = .comment kind)
    (hcomment : ∀ rest, StartsComment (t.text.toList ++ rest)) {post : List Token} :
    ∀ {pre : List Token} {offset : Nat} {spaced : Bool} {cs : List Char},
    scan offset spaced cs = pre ++ t :: post →
    ∃ left right, cs = left ++ t.text.toList ++ right ∧ offset + byteLength left = t.range.start ∧
      (solids offset spaced (left ++ ' ' :: right)).map
          (·.displaced (widen t.range.start (byteLength t.text.toList))) = solids offset spaced cs := by
  intro pre
  induction pre with
  | nil =>
    intro offset spaced cs h
    obtain ⟨right, hcs, hstart, hlength, hsolids⟩ := solids_comment hkind h
    refine ⟨[], right, hcs, hstart.symm, ?_⟩
    have hplace : offset + 1 + (byteLength t.text.toList - 1) = offset + byteLength t.text.toList := by
      omega
    rw [List.nil_append, solids_blank offset spaced (by decide), hsolids, hstart, ← hplace]
    exact map_displaced_solids _ _ _ fun x hx => widen_of_lt hx
  | cons u pre ih =>
    intro offset spaced cs h
    cases cs with
    | nil => rw [scan_nil] at h; cases h
    | cons c cs =>
      rw [scan_cons] at h
      obtain ⟨left, right, hrest, hleft, hsolids⟩ := ih (List.cons.inj h).2
      generalize hn : (first c cs).2 = n at hrest hleft hsolids
      have hle : n ≤ cs.length := hn ▸ first_le c cs
      have hcs : cs = cs.take n ++ left ++ (t.text.toList ++ right) := by
        rw [List.append_assoc, ← List.append_assoc left, ← hrest, List.take_append_drop]
      refine ⟨c :: cs.take n ++ left, right, ?_, ?_, ?_⟩
      · rw [List.append_assoc (c :: cs.take n), List.append_assoc (c :: cs.take n), ← hrest,
          List.cons_append, List.take_append_drop]
      · rw [byteLength_append, ← Nat.add_assoc, hleft]
      · rw [List.append_assoc]
        by_cases hc : isSpace c = true
        · -- a blank goes on up to the place of the comment, at most
          rw [first_of_isSpace hc] at hn hsolids
          have hblanks : ∀ d ∈ c :: cs.take n, isSpace d = true :=
            List.forall_mem_cons.2 ⟨hc, hn ▸ of_mem_take_countWhile⟩
          rw [solids_blanks hblanks (by simp), solids_cons_of_isSpace hc,
            show countWhile isSpace cs = n from hn]
          exact hsolids
        · -- the comment and the blank are both behind the token
          have hlength : (cs.take n).length = n := by rw [List.length_take, Nat.min_eq_left hle]
          have hsame : first c (cs.take n ++ (left ++ ' ' :: right)) = first c cs := by
            have hlocal := first_before_comment (c := c) (w := cs.take n ++ left)
              (a := t.text.toList ++ right) (b := ' ' :: right) (hcomment right) (closed_blank right)
              (by simpa using hc) (by rw [← hcs, hn, List.length_append, hlength]; omega)
            rwa [← hcs, List.append_assoc] at hlocal
          have htake : (cs.take n ++ (left ++ ' ' :: right)).take n = cs.take n :=
            List.take_left' hlength
          have hdrop : (cs.take n ++ (left ++ ' ' :: right)).drop n = left ++ ' ' :: right :=
            List.drop_left' hlength
          have hstop : offset + byteLength (c :: cs.take n) ≤ t.range.start :=
            hleft ▸ Nat.le_add_right ..
          have hstart : offset ≤ t.range.start := Nat.le_trans (Nat.le_add_right ..) hstop
          rw [List.cons_append, solids_cons, solids_cons, hsame, hn, htake, hdrop, List.map_append, hsolids,
            map_displaced_widen_of_le]
          intro v hv
          obtain rfl := List.mem_singleton.1 (List.mem_filter.1 hv).1
          exact ⟨hstart, hstop⟩

theorem startsComment_of_mem_scan {t : Token} {kind : CommentKind} (hkind : t.kind = .comment kind)
    {offset : Nat} {spaced : Bool} {cs : List Char} (h : t ∈ scan offset spaced cs) (rest : List Char) :
    StartsComment (t.text.toList ++ rest) := by
  obtain ⟨as, bs, hscan⟩ := List.append_of_mem h
  obtain ⟨pre, post, -, -, hcut⟩ := scan_resume hscan
  cases post with
  | nil => rw [scan_nil] at hcut; cases hcut
  | cons c cs =>
    rw [scan_cons] at hcut
    obtain ⟨rfl, -⟩ := List.cons.inj hcut
    rw [String.toList_ofList, List.cons_append]
    exact startsComment hkind _

end Lexer

/-! ### What is read and what is reported -/

namespace TokenStream

/-- What is sorted out of the tokens of a text is sorted out of the solid ones. -/
theorem ofTokens_solid (ts : List Token) :
    (ofTokens (ts.filter (·.kind.isSolid))).tokens = (ofTokens ts).tokens ∧
      (ofTokens (ts.filter (·.kind.isSolid))).diagnostics = (ofTokens ts).diagnostics := by
  refine ⟨?_, ?_⟩
  · change (ts.filter (·.kind.isSolid)).filter Token.isSignificant = ts.filter Token.isSignificant
    rw [List.filter_filter]
    refine List.filter_congr fun t _ => ?_
    rw [Token.isSignificant]
    cases t.kind <;> rfl
  · change (ts.filter (·.kind.isSolid)).filterMap Token.diagnostic? = ts.filterMap Token.diagnostic?
    rw [List.filterMap_filter]
    refine List.filterMap_congr fun t _ => ?_
    rw [Token.diagnostic?, Token.fault?]
    cases t.kind <;> rfl

theorem ofTokens_displaced (f : Nat → Nat) (ts : List Token) :
    (ofTokens (ts.map (·.displaced f))).tokens = (ofTokens ts).tokens.map (·.displaced f) ∧
      (ofTokens (ts.map (·.displaced f))).diagnostics =
        (ofTokens ts).diagnostics.map (·.displaced f) := by
  refine ⟨?_, ?_⟩
  · change (ts.map (·.displaced f)).filter Token.isSignificant = _
    rw [List.filter_map]
    rfl
  · change (ts.map (·.displaced f)).filterMap Token.diagnostic? =
      (ts.filterMap Token.diagnostic?).map (·.displaced f)
    rw [List.filterMap_map, List.map_filterMap]
    refine List.filterMap_congr fun t _ => ?_
    simp only [Function.comp_apply, Token.diagnostic?, Token.fault?, Token.displaced, Option.map_map]
    rfl

end TokenStream

/-- Two ways to cut a text behind as many bytes are one. -/
theorem append_inj_of_byteLength {as as' bs bs' : List Char} (h : as ++ bs = as' ++ bs')
    (hlength : byteLength as = byteLength as') : as = as' ∧ bs = bs' := by
  have hdrop := dropBytes_byteLength_append as bs
  rw [h, hlength, dropBytes_byteLength_append] at hdrop
  obtain rfl := Option.some.inj hdrop
  exact ⟨List.append_cancel_right h, rfl⟩

/-- **A blank in the place of a comment** leaves the tokens that are read and the diagnostics of single
tokens as they are; only their places change. -/
theorem TokenStream.ofText_blanked {text : String} {left right : List Char} {t : Token}
    {kind : CommentKind} (ht : t ∈ Token.ofText text) (hkind : t.kind = .comment kind)
    (htext : text.toList = left ++ t.text.toList ++ right) (hleft : byteLength left = t.range.start) :
    let blanked := String.ofList (left ++ ' ' :: right)
    let f := Lexer.widen t.range.start (byteLength t.text.toList)
    (ofText text).tokens = (ofText blanked).tokens.map (·.displaced f) ∧
      (ofText text).diagnostics = (ofText blanked).diagnostics.map (·.displaced f) ∧
      byteLength text.toList = f (byteLength blanked.toList) := by
  intro blanked f
  obtain ⟨as, bs, hscan⟩ := List.append_of_mem ht
  obtain ⟨left', right', htext', hleft', hsolids⟩ := Lexer.map_displaced_solids_blanked hkind
    (Lexer.startsComment_of_mem_scan hkind ht) hscan
  rw [htext, List.append_assoc, List.append_assoc] at htext'
  rw [Nat.zero_add] at hleft'
  obtain ⟨rfl, hright⟩ := append_inj_of_byteLength htext' (hleft.trans hleft'.symm)
  obtain rfl := List.append_cancel_left hright
  have hblanked : Lexer.solids 0 true (left ++ ' ' :: right) =
      (Token.ofText blanked).filter (·.kind.isSolid) := by
    rw [Token.ofText, String.toList_ofList, Lexer.solids]
  rw [hblanked] at hsolids
  have hsolid : (Token.ofText text).filter (·.kind.isSolid) =
      ((Token.ofText blanked).filter (·.kind.isSolid)).map (·.displaced f) := hsolids.symm
  refine ⟨?_, ?_, ?_⟩
  · rw [ofText, ← (ofTokens_solid _).1, hsolid, (ofTokens_displaced f _).1, (ofTokens_solid _).1, ofText]
  · rw [ofText, ← (ofTokens_solid _).2, hsolid, (ofTokens_displaced f _).2, (ofTokens_solid _).2, ofText]
  · have hne : t.text.toList ≠ [] := by
      intro hnil
      have hstart := Lexer.startsComment_of_mem_scan hkind ht []
      rw [hnil] at hstart
      rcases hstart with hhead | hhead <;> cases hhead
    have hlength : 0 < byteLength t.text.toList :=
      Nat.lt_of_lt_of_le (List.length_pos_iff.2 hne) (length_le_byteLength _)
    have hblank : byteLength blanked.toList = t.range.start + 1 + byteLength right := by
      rw [String.toList_ofList, byteLength_append, byteLength_cons, hleft, Nat.add_assoc]
      rfl
    rw [hblank, show f = Lexer.widen _ _ from rfl, Lexer.widen_of_lt (by omega), htext,
      byteLength_append, byteLength_append, hleft]
    omega

end ControlFile
