import Symphony.Grammar
import Symphony.Token.Scan

/-!
# Traces

The trace of a source is the list of its parse events, each with the number of the last line that
had been read when it happened, and the way recognition ended. It does not depend on what the
compiler makes of the events.
-/

namespace Symphony

/-- An event and the line that had been reached. -/
structure Step where
  event : Event
  line : Nat
deriving DecidableEq

/-- How recognition ends. -/
inductive Ending
  | accepted
  /-- A token, or the end of the source, that cannot stand where it does. -/
  | unexpected (l : Option Lexeme)
  | illegal (c : Char)
  | overlong
deriving DecidableEq

structure Trace where
  steps : List Step
  ending : Ending
  /-- The line on which recognition ended. -/
  line : Nat
deriving DecidableEq

namespace Trace

/-- The events that happen before the next token is looked at, and the goals after them. -/
def release : List Goal → List Event × List Goal
  | .act e :: goals =>
    let (events, rest) := release goals
    (e :: events, rest)
  | goals => ([], goals)

/-- What a stack of goals makes of a token: the events, and the new stack if the token is taken. -/
def take (t : Token) : List Goal → List Event × Option (List Goal)
  | [] => ([], none)
  | g :: goals =>
    match g.reactTo t with
    | .shift events push => (events, some (push ++ goals))
    | .done events =>
      let (more, result) := take t goals
      (events ++ more, result)
    | .reject => ([], none)

/-- What a stack of goals makes of the end of the source: the events, and whether all is done. -/
def close : List Goal → List Event × Bool
  | [] => ([], true)
  | g :: goals =>
    match g.reactToEnd with
    | .done events =>
      let (more, result) := close goals
      (events ++ more, result)
    | _ => ([], false)

/-- Puts events that happened on one line in front of a trace. -/
def prepend (events : List Event) (line : Nat) (t : Trace) : Trace :=
  { t with steps := events.map (⟨·, line⟩) ++ t.steps }

/-- The trace of a stack of goals on lexemes; `line` is the line reached so far, `stop` and `last`
say how and on which line scanning ended after them. -/
def ofGoals (stop : Stop) (last : Nat) : List Goal → Nat → List Lexeme → Trace
  | goals, line, [] =>
    let (early, goals) := release goals
    let rest := match stop with
      | .illegal c => ⟨[], .illegal c, last⟩
      | .overlong => ⟨[], .overlong, last⟩
      | .finished =>
        let (events, complete) := close goals
        prepend events last ⟨[], if complete then .accepted else .unexpected none, last⟩
    prepend early line rest
  | goals, line, l :: ls =>
    let (early, goals) := release goals
    let (events, result) := take l.token goals
    let rest := match result with
      | some goals => ofGoals stop last goals l.line ls
      | none => ⟨[], .unexpected (some l), l.line⟩
    prepend early line (prepend events l.line rest)

/-- The trace of scanned lexemes that start on a line. -/
def ofLexemes (line : Nat) (ls : Lexemes) : Trace :=
  ofGoals ls.stop ls.line Goal.programGoals line ls.list

/-- The trace of a source whose first line has the given number. -/
def ofSource (line : Nat) (source : String) : Trace :=
  ofLexemes line (Lexemes.scan line source)

end Trace

end Symphony
