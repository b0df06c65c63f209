import ControlFile.Text.LineMap
import Mathlib.Data.List.Basic

/-!
# Lines and columns of bytes

The line of a byte offset is the number of newline bytes before it, and its column is the distance from
where its line starts: the byte behind the last of these newlines, or the start of the text
(`LineMap.exists_lineStart`).  So positions stand in the order of the offsets
(`LineMap.before_position_iff`), behind the end of the text too, and a span holds the positions of the
offsets between its ends and no others (`LineMap.positions_exact`).

The line is searched among the starts.  Any search that finds a place where the offset stands, or else the
place where it would have to be put in, leads to the same position (`LineMap.position_of_finds`), and so
does a walk over the starts (`LineMap.position_eq_locate`), which is what the proofs follow.

In UTF-8 a newline is one byte, and that byte is part of no other character.  Lines can therefore be looked
for in the bytes as well as in the characters (`LineMap.startsFrom_eq`).
-/

namespace ControlFile

/-! ### Bytes -/

/-- The byte that ends a line. -/
def newlineByte : UInt8 := 0x0a

/-- The bytes of a text. -/
def bytesOf (text : String) : List UInt8 := text.toByteArray.data.toList

/-- The bytes of characters, one character behind the other. -/
def encode (cs : List Char) : List UInt8 := cs.flatMap String.utf8EncodeChar

theorem bytesOf_eq (text : String) : bytesOf text = encode text.toList := by
  rw [bytesOf, ← String.utf8Encode_toList, List.utf8Encode, List.toList_data_toByteArray, encode]

theorem encode_cons (c : Char) (cs : List Char) :
    encode (c :: cs) = String.utf8EncodeChar c ++ encode cs := List.flatMap_cons ..

/-- **The byte of a newline is in no other character.** -/
theorem eq_newline_of_mem {c : Char} (h : newlineByte ∈ String.utf8EncodeChar c) : c = '\n' := by
  have hbyte : ∀ n, newlineByte = UInt8.ofNat n → n % 256 = 10 := fun n hn =>
    (UInt8.toNat_ofNat' (n := n)).symm.trans (congrArg UInt8.toNat hn).symm
  suffices hc : c.val.toNat = 10 from Char.ext (UInt32.toNat_inj.1 hc)
  rw [String.utf8EncodeChar] at h
  -- Every byte of a character that takes more than one is above those of ASCII.
  split at h
  · have := hbyte _ (List.mem_singleton.1 h)
    omega
  · split at h
    · simp only [List.mem_cons, List.not_mem_nil, or_false] at h
      rcases h with h | h <;> have := hbyte _ h <;> omega
    · split at h
      · simp only [List.mem_cons, List.not_mem_nil, or_false] at h
        rcases h with h | h | h <;> have := hbyte _ h <;> omega
      · simp only [List.mem_cons, List.not_mem_nil, or_false] at h
        rcases h with h | h | h | h <;> have := hbyte _ h <;> omega

/-! ### Where lines start -/

/-- Where the line of `offset` starts: behind the last newline before it, or where the text does. -/
structure IsLineStart (bytes : List UInt8) (offset start : Nat) : Prop where
  le : start ≤ offset
  behind : start = 0 ∨ bytes[start - 1]? = some newlineByte
  last : ∀ i, start ≤ i → i < offset → bytes[i]? ≠ some newlineByte

namespace IsLineStart

variable {bytes : List UInt8} {offset start : Nat}

/-- A line starts at one place only. -/
theorem unique {start' : Nat} (h : IsLineStart bytes offset start) (h' : IsLineStart bytes offset start') :
    start = start' := by
  -- The later one of two places would be behind a newline of the same line.
  have hle : ∀ {s s' : Nat}, IsLineStart bytes offset s → IsLineStart bytes offset s' → s' ≤ s := by
    intro s s' hs hs'
    by_contra hlt
    rcases hs'.behind with hzero | hnewline
    · omega
    · exact hs.last (s' - 1) (by omega) (by have := hs'.le; omega) hnewline
  exact Nat.le_antisymm (hle h' h) (hle h h')

/-- The line goes on over bytes that are no newline. -/
theorem extend {later : Nat} (h : IsLineStart bytes offset start) (hle : offset ≤ later)
    (hnone : ∀ i, offset ≤ i → i < later → bytes[i]? ≠ some newlineByte) : IsLineStart bytes later start where
  le := Nat.le_trans h.le hle
  behind := h.behind
  last i hi hlt := by
    by_cases hbefore : i < offset
    · exact h.last i hi hbefore
    · exact hnone i (by omega) hlt

/-- Behind a newline a line starts. -/
theorem behind_newline (h : bytes[offset]? = some newlineByte) : IsLineStart bytes (offset + 1) (offset + 1) where
  le := Nat.le_refl _
  behind := .inr h
  last i hi hlt := by omega

end IsLineStart

namespace LineMap

/-- The starts of the lines behind the newlines among `bytes`, the first of which is at `offset`. -/
def startsOfBytes (offset : Nat) : List UInt8 → List Nat
  | [] => []
  | b :: bs =>
    if b = newlineByte then (offset + 1) :: startsOfBytes (offset + 1) bs else startsOfBytes (offset + 1) bs

/-- Bytes that are no newline start no line. -/
theorem startsOfBytes_append {as : List UInt8} (h : newlineByte ∉ as) (offset : Nat) (bs : List UInt8) :
    startsOfBytes offset (as ++ bs) = startsOfBytes (offset + as.length) bs := by
  induction as generalizing offset with
  | nil => rfl
  | cons a as ih =>
    rw [List.mem_cons, not_or] at h
    rw [List.cons_append, startsOfBytes, if_neg (Ne.symm h.1), ih h.2, List.length_cons, Nat.add_assoc,
      Nat.add_comm 1]

/-- **Lines are found in the bytes** as they are in the characters. -/
theorem startsFrom_eq (offset : Nat) (cs : List Char) : startsFrom offset cs = startsOfBytes offset (encode cs) := by
  induction cs generalizing offset with
  | nil => rfl
  | cons c cs ih =>
    rw [startsFrom_cons, encode_cons, ih]
    split
    · subst c
      rfl
    · rename_i hc
      rw [startsOfBytes_append fun h => hc (eq_newline_of_mem h), String.length_utf8EncodeChar]

theorem lt_of_mem_startsOfBytes {offset start : Nat} {bs : List UInt8} (h : start ∈ startsOfBytes offset bs) :
    offset < start := by
  induction bs generalizing offset with
  | nil => cases h
  | cons b bs ih =>
    rw [startsOfBytes] at h
    split at h
    · rcases List.mem_cons.1 h with rfl | h
      · omega
      · have := ih h
        omega
    · have := ih h
      omega

/-! ### The line that is searched -/

/-- What a search among numbers in ascending order answers: a place where the number stands, or, if it
stands nowhere, the place where it would have to be put in. -/
inductive Finds (starts : List Nat) (offset : Nat) : Except Nat Nat → Prop
  | ok {i : Nat} (h : starts[i]? = some offset) : Finds starts offset (.ok i)
  | error {i : Nat} (hlength : i ≤ starts.length) (hbefore : ∀ s ∈ starts.take i, s < offset)
      (hbehind : ∀ s ∈ starts.drop i, offset < s) : Finds starts offset (.error i)

section Search

variable {starts : List Nat} {offset : Nat}

/-- In ascending order, as many numbers stand before one as its place says. -/
theorem countP_le_of_getElem? (hsorted : starts.Pairwise (· < ·)) {i : Nat}
    (h : starts[i]? = some offset) : starts.countP (· ≤ offset) = i + 1 := by
  induction starts generalizing i with
  | nil => simp at h
  | cons start later ih =>
    obtain ⟨hstart, hlater⟩ := List.pairwise_cons.1 hsorted
    cases i with
    | zero =>
      obtain rfl : start = offset := by simpa using h
      have hnone : later.countP (· ≤ start) = 0 := List.countP_eq_zero.2 fun next hnext => by
        simpa using hstart next hnext
      simp [hnone]
    | succ i =>
      have hmem : offset ∈ later := List.mem_of_getElem? (by simpa using h)
      have hle : start ≤ offset := Nat.le_of_lt (hstart offset hmem)
      rw [List.countP_cons, ih hlater (by simpa using h), if_pos (by simpa using hle)]

/-- **The line that is found** is the last one that starts at the offset or before it. -/
theorem Finds.lineOf_eq (hsorted : starts.Pairwise (· < ·)) {answer : Except Nat Nat}
    (h : Finds starts offset answer) : lineOf answer = starts.countP (· ≤ offset) - 1 := by
  cases h with
  | ok h => rw [countP_le_of_getElem? hsorted h, lineOf, Nat.add_sub_cancel]
  | @error i hlength hbefore hbehind =>
    have htake : (starts.take i).countP (· ≤ offset) = (starts.take i).length :=
      List.countP_eq_length.2 fun s hs => by simpa using Nat.le_of_lt (hbefore s hs)
    have hdrop : (starts.drop i).countP (· ≤ offset) = 0 :=
      List.countP_eq_zero.2 fun s hs => by simpa using hbehind s hs
    have hcount : starts.countP (· ≤ offset) = i := by
      rw [← List.take_append_drop i starts, List.countP_append, htake, hdrop, List.length_take]
      omega
    rw [hcount, lineOf]

/-- Numbers in ascending order are cut where one would have to be put in. -/
theorem lt_of_mem_drop_countP (hsorted : starts.Pairwise (· < ·)) (hmem : offset ∉ starts) :
    (∀ s ∈ starts.take (starts.countP (· < offset)), s < offset) ∧
      ∀ s ∈ starts.drop (starts.countP (· < offset)), offset < s := by
  induction starts with
  | nil => simp
  | cons start later ih =>
    obtain ⟨hstart, hlater⟩ := List.pairwise_cons.1 hsorted
    obtain ⟨hne, hmem⟩ := not_or.1 (List.mem_cons.not.1 hmem)
    by_cases hlt : start < offset
    · rw [List.countP_cons_of_pos (by simpa using hlt), List.take_succ_cons, List.drop_succ_cons,
        List.forall_mem_cons]
      exact ⟨⟨hlt, (ih hlater hmem).1⟩, (ih hlater hmem).2⟩
    · have hall : ∀ s ∈ start :: later, offset < s := by
        rw [List.forall_mem_cons]
        have hhere : offset < start := by omega
        exact ⟨hhere, fun s hs => Nat.lt_trans hhere (hstart s hs)⟩
      have hnone : (start :: later).countP (· < offset) = 0 := List.countP_eq_zero.2 fun s hs => by
        simpa using Nat.le_of_lt (hall s hs)
      rw [hnone, List.take_zero, List.drop_zero]
      exact ⟨List.forall_mem_nil _, hall⟩

theorem finds_search (hsorted : starts.Pairwise (· < ·)) :
    Finds starts offset (search starts offset) := by
  unfold search
  cases hfound : starts.idxOf? offset with
  | some i =>
    obtain ⟨hi, hoffset, -⟩ := List.idxOf?_eq_some_iff.1 hfound
    exact .ok (by rw [List.getElem?_eq_getElem hi, hoffset])
  | none =>
    obtain ⟨hbefore, hbehind⟩ := lt_of_mem_drop_countP hsorted (List.idxOf?_eq_none_iff.1 hfound)
    exact .error List.countP_le_length hbefore hbehind

end Search

/-- **Any search among the starts** leads to the position. -/
theorem position_of_finds (m : LineMap) (offset : Nat) {answer : Except Nat Nat}
    (h : Finds m.starts offset answer) :
    m.position offset = ⟨lineOf answer, offset - m.starts.getD (lineOf answer) 0⟩ := by
  rw [position, (finds_search m.sorted).lineOf_eq m.sorted, h.lineOf_eq m.sorted]

/-! ### Walking the lines -/

/-- Walks the later line starts, `line` being the line that starts at `start`. -/
def locate (offset : Nat) : (line start : Nat) → List Nat → Position
  | line, start, [] => ⟨line, offset - start⟩
  | line, start, next :: later =>
    if next ≤ offset then locate offset (line + 1) next later else ⟨line, offset - start⟩

/-- The walk ends at the last line that starts at the offset or before it. -/
theorem locate_eq {offset line start : Nat} {later : List Nat} (hsorted : (start :: later).Pairwise (· < ·)) :
    locate offset line start later = ⟨line + later.countP (· ≤ offset),
      offset - (start :: later).getD (later.countP (· ≤ offset)) 0⟩ := by
  induction later generalizing line start with
  | nil => rfl
  | cons next later ih =>
    have hlater := hsorted.of_cons
    rw [locate]
    split
    · rename_i hle
      rw [ih hlater, List.countP_cons_of_pos (by simpa using hle), List.getD_cons_succ]
      congr 1
      omega
    · rename_i hgt
      have hnone : (next :: later).countP (· ≤ offset) = 0 := by
        refine List.countP_eq_zero.2 (List.forall_mem_cons.2 ⟨by simpa using hgt, fun s hs => ?_⟩)
        have := (List.pairwise_cons.1 hlater).1 s hs
        simp only [decide_eq_true_eq]
        omega
      rw [hnone]
      rfl

theorem position_eq_locate (m : LineMap) (offset : Nat) :
    m.position offset = locate offset 0 0 m.starts.tail := by
  obtain ⟨starts, hhead, hsorted⟩ := m
  obtain ⟨later, rfl⟩ := List.head?_eq_some_iff.1 hhead
  rw [position, (finds_search hsorted).lineOf_eq hsorted, List.tail_cons, locate_eq hsorted,
    List.countP_cons_of_pos (by simp), Nat.add_sub_cancel, Nat.zero_add]

/-! ### Positions -/

/-- A place before all later lines is on the line that has been reached. -/
theorem locate_of_lt {offset : Nat} {later : List Nat} (h : ∀ next ∈ later, offset < next) (line start : Nat) :
    locate offset line start later = ⟨line, offset - start⟩ := by
  cases later with
  | nil => rfl
  | cons next later => rw [locate, if_neg (Nat.not_le.2 (h next List.mem_cons_self))]

/-- Walking the lines of `bs`, which stands behind `before` in the text. -/
theorem exists_locate {bytes before bs : List UInt8} {offset start : Nat} (hbytes : bytes = before ++ bs)
    (hle : before.length ≤ offset) (hstart : IsLineStart bytes before.length start) :
    ∃ s, IsLineStart bytes offset s ∧
      locate offset (before.count newlineByte) start (startsOfBytes before.length bs) =
        ⟨(bytes.take offset).count newlineByte, offset - s⟩ := by
  induction bs generalizing before start with
  | nil =>
    obtain rfl : bytes = before := by rw [hbytes, List.append_nil]
    refine ⟨start, hstart.extend hle fun i hi _ => ?_, ?_⟩
    · rw [List.getElem?_eq_none hi]
      exact (Option.some_ne_none _).symm
    · rw [List.take_of_length_le hle]
      rfl
  | cons b bs ih =>
    by_cases hhere : before.length = offset
    · subst hhere
      refine ⟨start, hstart, ?_⟩
      rw [locate_of_lt (fun _ => lt_of_mem_startsOfBytes), hbytes, List.take_left' rfl]
    · have hnext : (before ++ [b]).length = before.length + 1 := List.length_append
      have hsplit : bytes = (before ++ [b]) ++ bs := by rw [hbytes, List.append_assoc, List.singleton_append]
      have hbyte : bytes[before.length]? = some b := by
        rw [hbytes, List.getElem?_append_right (Nat.le_refl _), Nat.sub_self, List.getElem?_cons_zero]
      by_cases hb : b = newlineByte
      · subst hb
        have hreached := ih hsplit (by omega) (hnext ▸ IsLineStart.behind_newline hbyte)
        rw [List.count_append, List.count_singleton_self, hnext] at hreached
        rwa [startsOfBytes, if_pos rfl, locate, if_pos (by omega)]
      · have hline : IsLineStart bytes (before.length + 1) start :=
          hstart.extend (Nat.le_succ _) fun i hi hlt => by
            obtain rfl : i = before.length := by omega
            rw [hbyte, Ne, Option.some.injEq]
            exact hb
        have hreached := ih hsplit (by omega) (hnext ▸ hline)
        rw [List.count_append, List.count_singleton, if_neg (by simpa using hb), Nat.add_zero, hnext] at hreached
        rwa [startsOfBytes, if_neg hb]

/-- **The position of an offset**: as many lines as there are newlines before it, and the distance from where
its line starts. -/
theorem exists_lineStart (text : String) (offset : Nat) :
    ∃ start, IsLineStart (bytesOf text) offset start ∧
      (ofText text).position offset = ⟨((bytesOf text).take offset).count newlineByte, offset - start⟩ := by
  have hstart : IsLineStart (bytesOf text) 0 0 := ⟨Nat.le_refl _, .inl rfl, fun _ _ hlt => by omega⟩
  have h := exists_locate (List.nil_append (bytesOf text)).symm (Nat.zero_le offset) hstart
  have hstarts : startsOfBytes 0 (bytesOf text) = (ofText text).starts.tail := by
    rw [bytesOf_eq, ← startsFrom_eq]
    rfl
  rwa [List.count_nil, List.length_nil, hstarts, ← position_eq_locate] at h

/-- Between two offsets with as many newlines before them there is none. -/
theorem not_newline_of_count_eq {bytes : List UInt8} {offset later : Nat} (hle : offset ≤ later)
    (hcount : (bytes.take later).count newlineByte = (bytes.take offset).count newlineByte) {i : Nat}
    (hi : offset ≤ i) (hlt : i < later) : bytes[i]? ≠ some newlineByte := by
  have hsplit : bytes.take later = bytes.take offset ++ (bytes.drop offset).take (later - offset) := by
    rw [← List.take_add, Nat.add_sub_cancel' hle]
  rw [hsplit, List.count_append, Nat.add_eq_left, List.count_eq_zero] at hcount
  intro hbyte
  refine hcount (List.mem_of_getElem? (i := i - offset) ?_)
  rw [List.getElem?_take_of_lt (by omega), List.getElem?_drop, Nat.add_sub_cancel' hi, hbyte]

theorem count_take_le (bytes : List UInt8) {offset later : Nat} (hle : offset ≤ later) :
    (bytes.take offset).count newlineByte ≤ (bytes.take later).count newlineByte :=
  (List.take_sublist_take_left hle).count_le _

/-- **Positions stand in the order of their offsets.** -/
theorem before_position_iff (text : String) (offset offset' : Nat) :
    ((ofText text).position offset).before ((ofText text).position offset') = true ↔ offset ≤ offset' := by
  have hbefore : ∀ p q : Position, p.before q = true ↔ p.line < q.line ∨ p.line = q.line ∧ p.column ≤ q.column := by
    simp [Position.before]
  obtain ⟨start, hstart, hpos⟩ := exists_lineStart text offset
  obtain ⟨start', hstart', hpos'⟩ := exists_lineStart text offset'
  rw [hbefore, hpos, hpos']
  dsimp only
  -- On one line the columns decide, since both are counted from the same start.
  have hsame : ∀ {o o' s s' : Nat}, IsLineStart (bytesOf text) o s → IsLineStart (bytesOf text) o' s' → o ≤ o' →
      ((bytesOf text).take o').count newlineByte = ((bytesOf text).take o).count newlineByte → s = s' := by
    intro o o' s s' hs hs' hle hcount
    exact (hs.extend hle fun i => not_newline_of_count_eq hle hcount).unique hs'
  have hle := hstart.le
  have hle' := hstart'.le
  rcases Nat.le_total offset offset' with horder | horder
  · have hlines := count_take_le (bytesOf text) horder
    refine iff_of_true ?_ horder
    rcases Nat.lt_or_eq_of_le hlines with hlt | heq
    · exact .inl hlt
    · have := hsame hstart hstart' horder heq.symm
      exact .inr ⟨heq, by omega⟩
  · have hlines := count_take_le (bytesOf text) horder
    refine ⟨?_, ?_⟩
    · rintro (hlt | ⟨heq, hcolumn⟩)
      · omega
      · have := hsame hstart' hstart horder heq
        omega
    · intro hle
      obtain rfl : offset = offset' := by omega
      have := hstart.unique hstart'
      exact .inr ⟨rfl, by omega⟩

/-- **Positions are exact, and spans hold what their extents do.**  The line of an offset is the number of
newline bytes before it, the column is the distance from where the line starts, and the span of an extent
holds the position of an offset exactly if the offset is between the ends. -/
theorem positions_exact (text : String) :
    (∀ offset, ∃ start, IsLineStart (bytesOf text) offset start ∧
      (ofText text).position offset = ⟨((bytesOf text).take offset).count newlineByte, offset - start⟩) ∧
    ∀ (r : Extent) (offset : Nat), ((ofText text).span r).contains ((ofText text).position offset) = true ↔
      r.start ≤ offset ∧ offset ≤ r.stop := by
  refine ⟨exists_lineStart text, fun r offset => ?_⟩
  rw [Span.contains_iff, span, before_position_iff, before_position_iff]

/-- Line starts, newlines, an empty line and a place behind the end of the text. -/
example : [0, 2, 3, 4, 5, 6, 9].map (ofText "é\n\nb\n").position =
    [⟨0, 0⟩, ⟨0, 2⟩, ⟨1, 0⟩, ⟨2, 0⟩, ⟨2, 1⟩, ⟨3, 0⟩, ⟨3, 3⟩] := by decide

end LineMap

end ControlFile
