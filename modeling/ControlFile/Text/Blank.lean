/-!
# Blank characters and words

A character is blank if it has the Unicode property *White_Space*; this takes in the no-break
space and the ideographic space, and not the zero-width space.  `words` cuts a text at its blanks
and `trim` removes those at its two ends.
-/

namespace ControlFile.Text

/-- The property *White_Space*, as ranges of code points in rising order. -/
def blankRanges : List (Nat × Nat) :=
  [(0x09, 0x0d), (0x20, 0x20), (0x85, 0x85), (0xa0, 0xa0), (0x1680, 0x1680), (0x2000, 0x200a),
   (0x2028, 0x2029), (0x202f, 0x202f), (0x205f, 0x205f), (0x3000, 0x3000)]

def isBlank (c : Char) : Bool := blankRanges.any fun (lo, hi) => lo ≤ c.toNat && c.toNat ≤ hi

/-- The stretches of characters between blanks. -/
def words : List Char → List (List Char)
  | [] => []
  | c :: cs =>
    if isBlank c then words cs
    else (c :: cs.takeWhile (!isBlank ·)) :: words (cs.dropWhile (!isBlank ·))
termination_by cs => cs.length
decreasing_by
  · simp
  · have := (List.dropWhile_sublist (l := cs) (!isBlank ·)).length_le
    simp only [List.length_cons]
    omega

@[simp] theorem words_nil : words [] = [] := by simp [words]

theorem words_cons_blank {c : Char} (cs : List Char) (h : isBlank c = true) :
    words (c :: cs) = words cs := by simp [words, h]

theorem words_cons_other {c : Char} (cs : List Char) (h : isBlank c = false) :
    words (c :: cs) =
      (c :: cs.takeWhile (!isBlank ·)) :: words (cs.dropWhile (!isBlank ·)) := by
  rw [words]
  simp [h]

/-- The text without the blanks at its ends. -/
def trim (cs : List Char) : List Char :=
  ((cs.dropWhile isBlank).reverse.dropWhile isBlank).reverse

end ControlFile.Text
