import Symphony.Console
import Symphony.Session

/-!
# Reports on files

A list of files is played in one session, and each gets a report: what it printed under its name in
green, or in red why it could not be played. The quads of a file that compiles are written to a note
file beside it, even if playing them fails.
-/

namespace Symphony

/-- What becomes of one file. -/
structure Report where
  output : String
  /-- The path and the text of the note file to write. -/
  note : Option (String × String)

/-- The path of the note file: the last four characters make way for its extension. -/
def Report.notePath (path : String) : String :=
  String.ofList (path.toList.take (path.length - 4)) ++ ".note"

/-- Plays one file, given by its path and, if it can be read, its text. -/
def Session.report (s : Session) (path : String) (text : Option String) (limit : Nat) :
    Report × Session :=
  match text with
  | none =>
    (⟨Console.line Console.red ["File", path, "was not found. Skipping..."], none⟩,
      s.renew {})
  | some text =>
    let (result, s) := s.run text none limit
    let note := if s.compiler.finished then
        some (Report.notePath path, Quad.program s.compiler.quads)
      else none
    let output := match result with
      | .ok out => Console.line Console.green [path] ++ out ++ "\n"
      | .error f =>
        s.notice result ++ Console.line Console.red ["ERROR in " ++ path ++ ": " ++ f.message]
    (⟨output, note⟩, s)

/-- Files by their paths. -/
abbrev Files := List (String × String)

namespace Files

def read? (files : Files) (path : String) : Option String :=
  files.lookup path

/-- Writes a file in place of the one at the same path. -/
def write (files : Files) (path text : String) : Files :=
  (path, text) :: files.filter (·.1 != path)

/-- The note files, in the order of their paths. -/
def notes (files : Files) : Files :=
  (files.filter (·.1.endsWith ".note")).mergeSort (·.1 ≤ ·.1)

end Files

/-- Plays files in turn, and collects the output and what has been written. -/
def Session.reportAll (s : Session) (files : Files) (limit : Nat) :
    List String → String × Files × Session
  | [] => ("", files, s)
  | path :: rest =>
    let (r, s) := s.report path (files.read? path) limit
    let files := match r.note with
      | some (path, text) => files.write path text
      | none => files
    let (output, files, s) := s.reportAll files limit rest
    (r.output ++ output, files, s)

end Symphony
