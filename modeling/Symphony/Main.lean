import Symphony.Report

/-!
# Command line

Plays the files named as arguments, each with a report on standard output.
-/

namespace Symphony

/-- Scrambles the bits of a word: consecutive words become unrelated ones. -/
def scramble (x : UInt64) : UInt64 :=
  let x := (x ^^^ (x >>> 30)) * 0xbf58476d1ce4e5b9
  let x := (x ^^^ (x >>> 27)) * 0x94d049bb133111eb
  x ^^^ (x >>> 31)

/-- Random numbers from zero up to but not including one. -/
def uniform (seed : UInt64) (i : Nat) : Value :=
  let word := scramble (seed + i.toUInt64 * 0x9e3779b97f4a7c15)
  .dec ((word >>> 11).toNat.toFloat / 9007199254740992.0)

/-- The text of a file, if there is one. -/
def readText? (path : String) : IO (Option String) := do
  try
    return some (← IO.FS.readFile path)
  catch
    | .noFileOrDirectory .. => return none
    | e => throw e

/-- More steps than any machine will take. -/
def unlimited : Nat := twoPow 62

end Symphony

open Symphony in
def main (args : List String) : IO Unit := do
  let seed ← IO.rand 0 (twoPow 31 - 1)
  let mut session := ({} : Session).supply (uniform seed.toUInt64)
  for path in args do
    try
      let (report, next) := session.report path (← readText? path) unlimited
      session := next
      if let some (note, text) := report.note then
        IO.FS.writeFile note text
      IO.print report.output
    catch e =>
      IO.print (Console.line Console.red ["ERROR in " ++ path ++ ": " ++ toString e])
