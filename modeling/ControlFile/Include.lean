/-!
# Included files

A `Resolver` gives the text of a path, if there is one.  It is a pure function: it answers the same
whenever it is asked for the same path, and asking changes nothing.  Only a watch sees which paths have
been asked for (`Run.asked`).

`Resolver.ofFiles` knows files by the path as it is written.  `Resolver.ofFolder` takes paths as steps
through a folder: `.` stays, `..` goes up, and every folder on the way has to be there; a path that
leads to a folder, or out of the root, has no text.
-/

namespace ControlFile

/-- The texts of paths. -/
abbrev Resolver := String → Option String

namespace Resolver

/-- No path has a text. -/
def nothing : Resolver := fun _ => none

/-- Files by their paths as written; of two files with one path the first counts. -/
def ofFiles (files : List (String × String)) : Resolver := fun path => files.lookup path

/-! ### Folders -/

/-- The steps of a path. Empty ones between two slashes are skipped, and so is `.`. -/
def steps (path : String) : List String :=
  ((path.splitOn "/").filter fun s => s != "" && s != ".")

/-- Whether a path can only lead to a folder: it ends with a slash, or with a step that stays. -/
def endsInFolder (path : String) : Bool :=
  match (path.splitOn "/").getLast? with
  | some last => last == "" || last == "." || last == ".."
  | none => true

/-- Whether there is a folder at the place that the steps lead to. -/
def isFolder (files : List (List String × String)) (place : List String) : Bool :=
  place.isEmpty || files.any fun (file, _) => place.length < file.length && place.isPrefixOf file

/-- Where steps lead from a folder, `place` being given by its steps from the root. -/
def walk (files : List (List String × String)) (place : List String) :
    List String → Option (List String)
  | [] => some place
  | step :: rest =>
    if !isFolder files place then none
    else if step == ".." then
      if place.isEmpty then none else walk files place.dropLast rest
    else walk files (place ++ [step]) rest

/-- Files in a folder, whose paths are given from there. -/
def ofFolder (files : List (String × String)) : Resolver := fun path =>
  let known := files.map fun (p, text) => (steps p, text)
  if path.startsWith "/" || endsInFolder path then none
  else (walk known [] (steps path)).bind fun place => known.lookup place

end Resolver

end ControlFile
