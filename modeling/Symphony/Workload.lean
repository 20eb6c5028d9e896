import Symphony.Report
import Symphony.Workload.Emission
import Symphony.Workload.Source

/-!
# Workloads

Fixed jobs that exercise the compiler and the machine, each with a size. A workload is set up once
and can then be called many times; every call gives a reading, from which one can see that it did
what it should.
-/

namespace Symphony

/-- What a call of a workload reports. -/
inductive Reading
  | number (n : Int)
  | text (s : String)
  | list (rs : List Reading)

structure Workload where
  setUp : Session → Session
  call : Session → Except Fault Reading × Session

namespace Workload

/-- The reading of a list of texts. -/
def texts (ts : List String) : Reading := .list (ts.map .text)

/-- Calls a workload until it fails, at most the given number of times. -/
def perform (w : Workload) : Nat → Session → List Reading × Option Fault × Session
  | 0, s => ([], none, s)
  | times + 1, s =>
    match w.call s with
    | (.ok r, s) =>
      let (rs, failure, s) := w.perform times s
      (r :: rs, failure, s)
    | (.error f, s) => ([], some f, s)

/-- A session with a cleared machine. -/
def clear (s : Session) : Session :=
  { s with machine := s.machine.cleared }

/-- Plays what has been compiled on a cleared machine. -/
def playCleared (s : Session) (inputs : Array String) (limit : Nat) : Session :=
  ((clear s).playCompiled inputs limit).2

/-! ## Playing programs -/

/-- Compiles a program, and plays it in each call. -/
def program (source : String) (limit : Nat) : Workload where
  setUp s := s.compileAside source
  call s :=
    let s := playCleared s #[] limit
    (.ok (texts s.machine.prints.toList), s)

def loop (rounds : Int) (limit : Nat) : Workload := program (loopSource rounds) limit

def recursion (depth : Int) (limit : Nat) : Workload := program (recursionSource depth) limit

/-- Plays the large program a number of times, and counts the prints and notes of each. -/
def playLarge (limit : Nat) : Nat → Session → List Reading × Session
  | 0, s => ([], s)
  | n + 1, s =>
    let s := playCleared s #["user_input"] limit
    let counts := [.number s.machine.prints.size, .number s.machine.notes.size]
    let (rs, s) := playLarge limit n s
    (.list counts :: rs, s)

def large (times : Int) (limit : Nat) : Workload where
  setUp s := s.compileAside largeSource
  call s :=
    let (rs, s) := playLarge limit times.toNat s
    (.ok (.list rs), s)

/-! ## Machine actions -/

/-- A program that has functions but no code. -/
def noCode (s : Session) : Program := ⟨#[], s.callable⟩

/-- Stores the numbers from one upwards in the first cells of all regions. -/
def fillRegions : Exec Unit := do
  let mut n : Int := 1
  for s in Sector.all do
    for t in Ty.all do
      Exec.store (.int n) (toString (s.regionStart t))
      n := n + 1

/-- Performs an operation on two cells of a sector. Its result goes to a global cell: one for truth
values, another for numbers. -/
def operateOn (s : Sector) (o : Operation) : Exec Unit := do
  let left := toString (s.regionStart .char)
  let right := toString (s.regionStart .str)
  let numbers := toString (Sector.globals.regionStart .int)
  let truths := toString (Sector.globals.regionStart .bool)
  match o with
  | .copy => o.perform [left, numbers]
  | .unary .not => o.perform [left, truths]
  | .unary _ => o.perform [left, numbers]
  | .binary .equals | .binary .gt | .binary .lt | .binary .ge | .binary .le =>
    o.perform [left, right, truths]
  | .binary _ => o.perform [left, right, numbers]

/-- Points at two array elements and stores through the pointers. -/
def storeElements : Exec Int := do
  let base := Sector.globals.regionStart .int
  let pointer := Sector.temporals.regionStart .int
  for (i, v) in [(1, 42), (2, 3)] do
    let target := pointer + i
    Exec.store (.int i) (toString base)
    Routine.verify (toString base) "0" "3"
    Routine.accessElement (toString base) (toString base) (toString target)
    Exec.store (.int v) ("&" ++ toString target)
  match ← Exec.value (toString (pointer + 2)) with
  | .int a => return a
  | _ => throw .mismatch

/-- Stores to and operates on cells of all sectors: first the given number of operations, then
every operation once in every sector. Reads off how many operations there were, counted from the
address of the last array element, and the number of sectors. -/
def cellActions (count : Int) : Exec Reading := do
  fillRegions
  let a ← storeElements
  let chosen := (List.range count.toNat).filterMap fun i => Operation.all[i % Operation.all.length]?
  for o in chosen do
    operateOn .globals o
  for s in Sector.all.reverse do
    for o in Operation.all do
      operateOn s o
  let performed := chosen.length + Sector.all.length * Operation.all.length
  return .list [.number (a + performed), .number Sector.all.length]

def cells (count : Int) : Workload where
  setUp s := s
  call s := (clear s).exec (cellActions count)

/-- The message with which an action fails, or the reading of its result. -/
def faultOf {α : Type} (s : Session) (x : Exec α) (read : α → Reading) : Reading × Session :=
  match s.exec x with
  | (.ok a, s) => (read a, s)
  | (.error f, s) => (.text f.message, s)

/-- Plays another program on the machine of a session: its output, or why it failed. -/
def aside (s : Session) (source : String) (inputs : Array String) (limit : Nat) :
    Reading × Session :=
  let (failure, t) := (s.compileAside source).playCompiled inputs limit
  let s := { s with machine := t.machine }
  (.text ((failure.map Failure.message).getD s.output), s)

/-- Every kind of fault, and a few actions that succeed. -/
def faultRound (limit : Nat) (s : Session) : List Reading × Session :=
  let nothing (_ : Unit) : Reading := .text ""
  let jump (i : Option Int) : Reading := .number (i.getD 0)
  let number (v : Value) : Reading := .number (v.int?.getD 0)
  let p := noCode s
  let (unset, s) := faultOf (clear s) (Exec.value "10000") number
  let (zero, s) := faultOf s (do
    Exec.store (.int 5) "10000"
    Exec.store (.int 0) "10001"
    Operation.perform (.binary .div) ["10000", "10001", "130000"]) nothing
  let (outside, s) := faultOf s (do
    Exec.store (.int 99) "10001"
    p.execute 0 "VER" ["10001", "0", "3"]) jump
  let (unknown, s) := faultOf s (p.execute 0 "NOPE" []) jump
  let (target, s) := faultOf s (p.execute 0 "GOTO" ["1"]) jump
  let (division, s) := aside s divisionSource #[] limit
  let (missing, s) := aside s inputSource #[] limit
  let (unread, s) := aside s printSource #["unread"] limit
  let (printed, s) := aside s printSource #[] limit
  let (difference, s) := faultOf s (do
    Exec.store (.int 3) "10001"
    Operation.perform (.binary .sub) ["10000", "10001", "130000"]
    Exec.value "130000") number
  ([unset, zero, outside, unknown, target, division, missing, unread, printed, difference], s)

/-- Threads a session through a number of rounds and collects their readings. -/
def rounds (round : Session → List Reading × Session) : Nat → Session → List Reading × Session
  | 0, s => ([], s)
  | n + 1, s =>
    let (first, s) := round s
    let (rest, s) := rounds round n s
    (first ++ rest, s)

def faults (count : Int) (limit : Nat) : Workload where
  setUp s := s.compileAside printSource
  call s :=
    let (rs, s) := rounds (faultRound limit) count.toNat s
    (.ok (.list rs), s)

/-! ## Compiler actions -/

/-- The rejections of one round. -/
def refusalRound (s : Session) : List Reading × Session :=
  match (s.renew {}).command refusals with
  | (.ok (messages, quads), s) => (messages.map .text ++ [.number quads], s)
  | (.error r, s) => ([.text r.message], s)

def rejections (count : Int) : Workload where
  setUp s := s
  call s :=
    let (rs, s) := rounds refusalRound count.toNat s
    (.ok (.list rs), s)

def quads (count : Int) : Workload where
  setUp s := s
  call s :=
    match (s.renew {}).command (emission count) with
    | (.ok n, s) => (.ok (.number n), s)
    | (.error r, s) => (.ok (.text r.message), s)

/-! ## Files -/

/-- Runs the text of a file and gives its output, or why it failed. -/
def runFile (s : Session) (text : String) (inputs : Option String) (limit : Nat) :
    String × Session :=
  match s.run text inputs limit with
  | (.ok out, s) => (out, s)
  | (.error f, s) => (f.message, s)

/-- Runs files one after the other and collects their outputs. -/
def runFiles (limit : Nat) : List String → Session → List Reading × Session
  | [], s => ([], s)
  | file :: rest, s =>
    let (out, s) := runFile s file none limit
    let (outs, s) := runFiles limit rest s
    (.text out :: outs, s)

/-- Files that loop, each twenty rounds longer than the one before. -/
def loopFiles (count : Int) : List String :=
  (List.range count.toNat).map fun (i : Nat) => loopSource (150 + 20 * i)

/-- Runs a number of files, then the large program, then reports on the first of the files and on a
program that fails. Without files there is no first one. -/
def files (count : Int) (limit : Nat) : Workload where
  setUp s := s
  call s :=
    let (outputs, s) := runFiles limit (loopFiles count) s
    let (out, s) := runFile s largeSource (some "typed_input") limit
    let notes := texts s.machine.notes.toList
    match loopFiles count with
    | [] => (.error .absent, s)
    | first :: _ =>
      let (_, s) := s.report "first.sym" (some first) limit
      let (_, s) := s.report "division.sym" (some divisionSource) limit
      (.ok (.list (outputs ++ [.list [.text out, notes]])), s)

end Workload

end Symphony
