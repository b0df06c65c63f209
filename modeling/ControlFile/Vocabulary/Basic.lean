/-!
# Vocabularies

Which words are keywords is not fixed by the language: a `Vocabulary` says it, by any test of words.
Keywords are ordinary identifiers to the lexer.

The words that may follow `site` are fixed.  `SiteWord.ofWord?` knows them; they have their meaning
inside a site and inside the body of a macro only.
-/

namespace ControlFile

/-- Which words open a keyword statement. -/
structure Vocabulary where
  contains : String → Bool
deriving Inhabited

/-- A list of words says which words are in it. -/
instance Vocabulary.ofWords : Coe (List String) (String → Bool) := ⟨fun words word => words.contains word⟩

/-- No word is a keyword. -/
def Vocabulary.empty : Vocabulary := ⟨fun _ => false⟩

/-! ### Words of a site -/

/-- A fractional coordinate. -/
inductive Axis
  | x
  | y
  | z
deriving DecidableEq, Inhabited

def Axis.word : Axis → String
  | .x => "x"
  | .y => "y"
  | .z => "z"

/-- A statement of a site that is one value. -/
inductive SiteScalar
  | numPosns
  | randXyz
  | inter
  | minR
  | maxR
deriving DecidableEq, Inhabited

namespace SiteScalar

def word : SiteScalar → String
  | .numPosns => "num_posns"
  | .randXyz => "rand_xyz"
  | .inter => "inter"
  | .minR => "min_r"
  | .maxR => "max_r"

/-- Whether the value is fixed, so that it may not be marked for refinement. -/
def isFixed : SiteScalar → Bool
  | .numPosns => false
  | _ => true

end SiteScalar

/-- What may follow the value of an occupancy. -/
inductive OccupancyWord
  | beq
  | scaleOcc
deriving DecidableEq, Inhabited

def OccupancyWord.word : OccupancyWord → String
  | .beq => "beq"
  | .scaleOcc => "scale_occ"

/-- An anisotropic displacement parameter. -/
inductive AdpWord
  | u11
  | u22
  | u33
  | u12
  | u13
  | u23
deriving DecidableEq, Inhabited

def AdpWord.word : AdpWord → String
  | .u11 => "u11"
  | .u22 => "u22"
  | .u33 => "u33"
  | .u12 => "u12"
  | .u13 => "u13"
  | .u23 => "u23"

/-- A word that may follow `site name`. -/
inductive SiteWord
  | axis (a : Axis)
  | occ
  | occupancy (w : OccupancyWord)
  | scalar (s : SiteScalar)
  | adps
  | adp (u : AdpWord)
deriving DecidableEq, Inhabited

namespace SiteWord

def word : SiteWord → String
  | .axis a => a.word
  | .occ => "occ"
  | .occupancy w => w.word
  | .scalar s => s.word
  | .adps => "adps"
  | .adp u => u.word

/-- All words of a site. -/
def all : List SiteWord :=
  [.axis .x, .axis .y, .axis .z, .occ, .occupancy .beq, .occupancy .scaleOcc, .scalar .numPosns,
   .scalar .randXyz, .scalar .inter, .adps, .adp .u11, .adp .u22, .adp .u33, .adp .u12, .adp .u13,
   .adp .u23, .scalar .minR, .scalar .maxR]

def ofWord? (text : String) : Option SiteWord := all.find? (·.word == text)

theorem ofWord?_word (w : SiteWord) : ofWord? w.word = some w := by
  rcases w with (_ | _ | _) | _ | (_ | _) | (_ | _ | _ | _ | _) | _ | (_ | _ | _ | _ | _ | _) <;>
    decide

/-- Whether the word takes a fixed value. -/
def isFixed : SiteWord → Bool
  | .scalar s => s.isFixed
  | _ => false

end SiteWord

end ControlFile
