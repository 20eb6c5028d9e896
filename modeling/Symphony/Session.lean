import Symphony.Compiler.Perform
import Symphony.Machine.Run

/-!
# Sessions

Programs can be compiled and played one after the other. Line numbers go on counting from one
source to the next, and a program finds in memory what the one before has left there. A `Session`
holds all that outlives a program.

The machine calls the functions of the program it was given last. Compiling another source does not
change them; only playing it does.
-/

namespace Symphony

/-- Why a source could not be run to its end. -/
inductive Failure
  | rejected (r : Rejection)
  | fault (f : Fault)
  /-- The limit on the number of steps was reached. -/
  | unfinished

def Failure.message : Failure → String
  | rejected r => r.message
  | fault f => f.message
  | unfinished => "The program takes too many steps"

/-- Why a run that ends this way has failed, if it has. -/
def Outcome.failure? : Outcome → Option Failure
  | finished => none
  | fault f => some (.fault f)
  | unfinished _ => some .unfinished

namespace Bank

/-- A bank with one more cell. -/
def put (b : Bank) (t : Ty) (a : Int) (v : Value) : Bank :=
  b.set t ((b.get t).put (.ofInt a) v)

/-- The cells of a compiler's constants. -/
def ofPools (pools : PerTy Pool) : Bank :=
  .ofFn fun t => (pools.get t).foldl (fun cells (v, a) => cells.put (.ofInt a) v) ∅

end Bank

structure Session where
  /-- The number of the line that was read last. -/
  line : Nat := 1
  compiler : Compiler := {}
  machine : Machine := {}
  /-- The functions the machine calls, if they are no longer those of the compiler. -/
  loaded : Option (List Function) := none

namespace Session

/-- The functions the machine calls. -/
def callable (s : Session) : List Function :=
  s.loaded.getD s.compiler.functions

/-- Takes a new compiler. The machine goes on with the functions it has. -/
def renew (s : Session) (compiler : Compiler) : Session :=
  { s with compiler, loaded := some s.callable }

theorem callable_renew (s : Session) (c : Compiler) : (s.renew c).callable = s.callable := rfl

/-- Gives the machine the functions of the compiler, and those that it will get. -/
def load (s : Session) : Session :=
  { s with loaded := none }

theorem callable_load (s : Session) : s.load.callable = s.compiler.functions := rfl

/-- Scans a source. -/
def scan (s : Session) (source : String) : Lexemes × Session :=
  let ls := Lexemes.scan s.line source
  (ls, { s with line := ls.line })

/-- Compiles a source with a new compiler. -/
def compile (s : Session) (source : String) : Option Rejection × Session :=
  let c := Compiled.ofSource s.line source
  (c.rejection, { s.renew c.state with line := c.line })

/-- Compiles a source without counting its lines. -/
def compileAside (s : Session) (source : String) : Session :=
  s.renew (Compiled.ofSource s.line source).state

/-- The program a compiler has emitted. -/
def program (s : Session) : Program :=
  .ofText (Quad.program s.compiler.quads) s.compiler.functions

/-- Starts a new supply of random numbers. -/
def supply (s : Session) (randoms : Nat → Value) : Session :=
  { s with machine := { s.machine with randoms, randomCount := 0 } }

/-- Plays the text of quads with a new compiler, which knows only the given functions. -/
def play (s : Session) (code : String) (constants : Bank) (functions : List Function)
    (inputs : Array String) (limit : Nat) : Option Failure × Session :=
  let s := (s.renew { functions := Function.putAll [.opened none none 0] functions }).load
  let (outcome, machine) := s.machine.play (.ofText code s.callable) constants inputs limit
  (outcome.failure?, { s with machine })

/-- Puts constants and input in place for single machine actions, and adds functions to those of the
compiler. -/
def equip (s : Session) (constants : Bank) (functions : List Function) (inputs : Array String) :
    Session :=
  { s with
    compiler := { s.compiler with functions := Function.putAll s.compiler.functions functions }
    machine :=
      { s.machine with memory := { s.machine.memory with constants }, inputs } }

/-- Performs a machine action. -/
def exec {α : Type} (s : Session) (x : Exec α) : Except Fault α × Session :=
  let (result, machine) := x.runFrom s.machine
  (result, { s with machine })

/-- Performs a compiler action. -/
def command {α : Type} (s : Session) (x : Compile α) : Except Rejection α × Session :=
  let (result, compiler) := x.runFrom s.compiler
  (result, { s with compiler })

/-- Plays what has been compiled. -/
def playCompiled (s : Session) (inputs : Array String) (limit : Nat) : Option Failure × Session :=
  let s := s.load
  let (outcome, machine) :=
    s.machine.play s.program (.ofPools s.compiler.constants) inputs limit
  (outcome.failure?, { s with machine })

/-- The lines of an input text. Without a text there are none. -/
def inputLines : Option String → Array String
  | none => #[]
  | some text => (Text.lines text).toArray

/-- All that the last program has printed. -/
def output (s : Session) : String :=
  String.join s.machine.prints.toList

/-- Compiles and plays the text of a file, whose line ends may be of any system. -/
def run (s : Session) (text : String) (inputs : Option String) (limit : Nat) :
    Except Failure String × Session :=
  let (rejection, s) := s.compile (String.ofList (Text.unixLines text.toList))
  match rejection with
  | some r => (.error (.rejected r), s)
  | none =>
    match s.playCompiled (inputLines inputs) limit with
    | (some f, s) => (.error f, s)
    | (none, s) => (.ok s.output, s)

/-- What is printed while a source is rejected. -/
def notice (s : Session) : Except Failure String → String
  | .error (.rejected r) => r.notice s.line
  | _ => ""

end Session

end Symphony
