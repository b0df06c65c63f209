/-!
# Places in a text

A place in a text is a byte offset into its UTF-8 form, and a stretch of text is an `Extent`, a
pair of offsets.  People are told about places by line and column instead, both counted from
zero: a `Position`, and a `Span` of two of them.

Main facts: `Extent.clamp_of_le` (an extent inside the text is left alone), `byteLength_toList`
(the bytes of a string are those of its characters), `dropBytes_byteLength_append` (cutting a text
behind its first characters) and `Span.contains_iff` (a span holds the positions between its ends,
in reading order).
-/

namespace ControlFile

/-! ### Byte offsets -/

/-- A stretch of bytes: from `start` up to and without `stop`. -/
structure Extent where
  start : Nat
  stop : Nat
deriving DecidableEq, Inhabited

namespace Extent

/-- The stretch of no bytes at `offset`. -/
def emptyAt (offset : Nat) : Extent := ⟨offset, offset⟩

/-- Both ends moved back to `limit` where they lie behind it. -/
def clamp (limit : Nat) (r : Extent) : Extent := ⟨min r.start limit, min r.stop limit⟩

/-- **Inside.** An extent that ends inside the text is not moved. -/
theorem clamp_of_le {limit : Nat} {r : Extent} (hs : r.start ≤ limit) (he : r.stop ≤ limit) :
    r.clamp limit = r := by
  simp [clamp, Nat.min_eq_left hs, Nat.min_eq_left he]

end Extent

/-- The number of bytes of a text given as characters. -/
def byteLength : List Char → Nat
  | [] => 0
  | c :: cs => c.utf8Size + byteLength cs

@[simp] theorem byteLength_nil : byteLength [] = 0 := rfl

@[simp] theorem byteLength_cons (c : Char) (cs : List Char) :
    byteLength (c :: cs) = c.utf8Size + byteLength cs := rfl

@[simp] theorem byteLength_append (as bs : List Char) :
    byteLength (as ++ bs) = byteLength as + byteLength bs := by
  induction as with
  | nil => simp
  | cons a as ih => simp [ih, Nat.add_assoc]

/-- Every character takes a byte. -/
theorem length_le_byteLength (cs : List Char) : cs.length ≤ byteLength cs := by
  induction cs with
  | nil => simp
  | cons c cs ih =>
    have hc := c.utf8Size_pos
    rw [List.length_cons, byteLength_cons]
    omega

/-- **Bytes of a string.** They are the bytes of its characters. -/
theorem byteLength_ofList (cs : List Char) : byteLength cs = (String.ofList cs).utf8ByteSize := by
  induction cs with
  | nil => simp
  | cons c cs ih =>
    have hone : (String.ofList [c]).utf8ByteSize = c.utf8Size := by
      rw [← String.singleton_eq_ofList, String.utf8ByteSize_singleton]
    have hsplit : String.ofList (c :: cs) = String.ofList [c] ++ String.ofList cs := by
      rw [← String.ofList_append]
      rfl
    rw [byteLength_cons, ih, hsplit, String.utf8ByteSize_append, hone]

/-- What is left of a text from byte `offset` on.  There is no answer if the text is shorter, or
if the offset falls inside a character. -/
def dropBytes : Nat → List Char → Option (List Char)
  | 0, cs => some cs
  | _ + 1, [] => none
  | n + 1, c :: cs => if c.utf8Size ≤ n + 1 then dropBytes (n + 1 - c.utf8Size) cs else none

@[simp] theorem dropBytes_zero (cs : List Char) : dropBytes 0 cs = some cs := by
  cases cs <;> simp [dropBytes]

/-- **Cutting.** What is dropped and what is left make up the text. -/
theorem dropBytes_byteLength_append (as bs : List Char) :
    dropBytes (byteLength as) (as ++ bs) = some bs := by
  induction as with
  | nil => simp
  | cons a as ih =>
    have ha := a.utf8Size_pos
    obtain ⟨n, hn⟩ : ∃ n, a.utf8Size + byteLength as = n + 1 := ⟨_, (Nat.succ_pred (by omega)).symm⟩
    rw [byteLength_cons, hn, List.cons_append, dropBytes, if_pos (by omega),
      show n + 1 - a.utf8Size = byteLength as by omega, ih]

/-! ### Lines and columns -/

/-- A line and a column in bytes, both counted from zero. -/
structure Position where
  line : Nat
  column : Nat
deriving DecidableEq, Inhabited

/-- Reading order: by line, then by column. -/
def Position.before (p q : Position) : Bool :=
  p.line < q.line || (p.line == q.line && p.column ≤ q.column)

/-- Two positions and all that lies between them. -/
structure Span where
  start : Position
  stop : Position
deriving DecidableEq, Inhabited

/-- Whether `p` lies between the ends of the span, both ends included. -/
def Span.contains (s : Span) (p : Position) : Bool := s.start.before p && p.before s.stop

theorem Span.contains_iff {s : Span} {p : Position} :
    s.contains p = true ↔ s.start.before p = true ∧ p.before s.stop = true := by
  simp [contains]

end ControlFile
