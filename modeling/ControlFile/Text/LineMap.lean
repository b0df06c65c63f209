import ControlFile.Text.Extent

/-!
# Lines of a text

`LineMap.ofText` notes where each line starts, and `LineMap.position` turns a byte offset into a
line and a column.  A line ends with its newline, so a newline is the last column of its own line.
An offset behind the end of the text lies on the last line.
-/

namespace ControlFile

/-- Where the lines of a text start, the first of them at `0`. -/
structure LineMap where
  starts : List Nat
  head : starts.head? = some 0
  sorted : starts.Pairwise (· < ·)
deriving DecidableEq

namespace LineMap

/-- The starts of the lines that begin in `cs`, a text whose first byte is at `offset`. -/
def startsFrom (offset : Nat) : List Char → List Nat
  | [] => []
  | c :: cs =>
    let next := offset + c.utf8Size
    if c = '\n' then next :: startsFrom next cs else startsFrom next cs

@[simp] theorem startsFrom_nil (offset : Nat) : startsFrom offset [] = [] := rfl

theorem startsFrom_cons (offset : Nat) (c : Char) (cs : List Char) :
    startsFrom offset (c :: cs) =
      if c = '\n' then (offset + c.utf8Size) :: startsFrom (offset + c.utf8Size) cs
      else startsFrom (offset + c.utf8Size) cs := rfl

theorem lt_of_mem_startsFrom {offset start : Nat} {cs : List Char} (h : start ∈ startsFrom offset cs) :
    offset < start := by
  induction cs generalizing offset with
  | nil => cases h
  | cons c cs ih =>
    have hsize := c.utf8Size_pos
    rw [startsFrom_cons] at h
    split at h
    · rcases List.mem_cons.1 h with rfl | h
      · omega
      · have := ih h
        omega
    · have := ih h
      omega

theorem sorted_startsFrom (offset : Nat) (cs : List Char) :
    (startsFrom offset cs).Pairwise (· < ·) := by
  induction cs generalizing offset with
  | nil => exact .nil
  | cons c cs ih =>
    rw [startsFrom_cons]
    split
    · exact .cons (fun _ => lt_of_mem_startsFrom) (ih _)
    · exact ih _

def ofText (text : String) : LineMap where
  starts := 0 :: startsFrom 0 text.toList
  head := rfl
  sorted := .cons (fun _ => lt_of_mem_startsFrom) (sorted_startsFrom 0 text.toList)

instance : Inhabited LineMap := ⟨ofText ""⟩

/-- A text has one line more than it has newlines. -/
def lineCount (m : LineMap) : Nat := m.starts.length

/-- The place of `offset` among numbers in ascending order, or else the place where it would have to
be put in. -/
def search (starts : List Nat) (offset : Nat) : Except Nat Nat :=
  match starts.idxOf? offset with
  | some found => .ok found
  | none => .error (starts.countP (· < offset))

/-- The line that is searched: where the offset stands, or before it would have to be put in. -/
def lineOf : Except Nat Nat → Nat
  | .ok line => line
  | .error next => next - 1

/-- The position of a byte offset. -/
def position (m : LineMap) (offset : Nat) : Position :=
  let line := lineOf (search m.starts offset)
  ⟨line, offset - m.starts.getD line 0⟩

/-- The positions of the two ends of an extent. -/
def span (m : LineMap) (r : Extent) : Span := ⟨m.position r.start, m.position r.stop⟩

end LineMap

end ControlFile
