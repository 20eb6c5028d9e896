import Symphony.Machine.State
import Symphony.Value.Arithmetic

/-!
# Routines

Quads that do not compute: special functions, jumps, array accesses and calls. A routine is tried
with the first field of its quad. If that does not fit, it is tried again with two fields and then
with three; if it found nothing at a position, it is tried without fields. What a failed attempt
has changed stays changed.
-/

namespace Symphony

inductive Routine
  | param
  | print
  | println
  | sqrt
  | log
  | get
  | littleStar
  | note (name : String)
  | length
  | copy
  | random
  | toStr
  | input
  | floor
  | ceil
  | goto
  | gotof
  | access
  | ver
  | gosub
  | endproc
deriving DecidableEq

namespace Routine

def ofName? : String → Option Routine
  | "PARAM" => some param
  | "print" => some print
  | "println" => some println
  | "sqrt" => some sqrt
  | "log" => some log
  | "get" => some get
  | "little_star" => some littleStar
  | "A" => some (note "A")
  | "B" => some (note "B")
  | "C" => some (note "C")
  | "D" => some (note "D")
  | "E" => some (note "E")
  | "F" => some (note "F")
  | "G" => some (note "G")
  | "length" => some length
  | "copy" => some copy
  | "random" => some random
  | "to_str" => some toStr
  | "input" => some input
  | "floor" => some floor
  | "ceil" => some ceil
  | "GOTO" => some goto
  | "GOTOF" => some gotof
  | "ACCESS" => some access
  | "VER" => some ver
  | "GOSUB" => some gosub
  | "ENDPROC" => some endproc
  | _ => none

/-- The notes of the song every program can play. -/
def littleStarNotes : List String :=
  ["C", "C", "G", "G", "A", "A", "G", "F", "F", "E", "E", "D", "D", "C"]

/-! ## Functions of numbers -/

/-- The square root of a number that is not negative. -/
def sqrtOf (v : Value) : Except Fault Value :=
  let root (x : Float) : Except Fault Value := if x < 0 then .error .domain else .ok (.dec x.sqrt)
  match v with
  | .dec x => root x
  | v =>
    match v.int? with
    | some n => (Value.toDec n).bind root
    | none => .error .mismatch

/-- The natural logarithm of a positive number. An integer that is too large for a decimal is first
written as a fraction times a power of two. -/
def logOf (v : Value) : Except Fault Value :=
  match v with
  | .dec x => if x ≤ 0 then .error .domain else .ok (.dec x.log)
  | v =>
    match v.int? with
    | none => .error .mismatch
    | some n =>
      if n ≤ 0 then .error .domain
      else
        match Number.ofInt? n with
        | some x => .ok (.dec x.log)
        | none =>
          let bits := n.natAbs.log2 + 1
          let x := Number.ofRatio false n.natAbs (twoPow bits)
          let (x, bits) := if x == 1 then (0.5, bits + 1) else (x, bits)
          .ok (.dec (x.log + Float.log 2.0 * Float.ofNat bits))

/-- Rounds a number to an integer. -/
def roundWith (round : Float → Int) (v : Value) : Except Fault Value :=
  match v with
  | .dec x =>
    if x.isNaN then .error .notNumber
    else if x.isInf then .error .overflow
    else .ok (.int (round x))
  | v =>
    match v.int? with
    | some n => .ok (.int n)
    | none => .error .mismatch

/-! ## Functions of texts -/

def lengthOf : Value → Except Fault Value
  | .str s => .ok (.int s.length)
  | _ => .error .mismatch

/-- The character at an index; a negative index counts from the end. -/
def characterOf (text index : Value) : Except Fault Value :=
  match text, index.int? with
  | .str s, some i =>
    let cs := s.toList
    let c? := if 0 ≤ i then cs[i.toNat]?
      else if -(cs.length : Int) ≤ i then cs[(cs.length + i).toNat]?
      else none
    match c? with
    | some c => .ok (.str (String.singleton c))
    | none => .error .absent
  | _, _ => .error .mismatch

/-! ## Output, input and parameters -/

/-- Prints the parameter handed over last, and a text after it. -/
def printWith (ending : String) : Exec Unit := do
  let v ← Exec.popValue
  let s ← Attempt.ofExcept v.printed
  modify fun m => { m with prints := m.prints.push (s ++ ending) }

def playNotes (names : List String) : Exec Unit :=
  modify fun m => { m with notes := m.notes ++ names.toArray }

/-- Stores a function of the parameter handed over last. -/
def storeOf (f : Value → Except Fault Value) (destination : String) : Exec Unit := do
  let v ← Exec.popValue
  Exec.store (← Attempt.ofExcept (f v)) destination

/-- The next random number. -/
def nextRandom : Exec Value := do
  let m ← MonadState.get
  modify fun m => { m with randomCount := m.randomCount + 1 }
  return m.randoms m.randomCount

/-- Stores the next input line. Only then is it used up. -/
def readInput (destination : String) : Exec Unit := do
  let m ← MonadState.get
  match m.inputs[m.inputCount]? with
  | none => throw .absent
  | some line =>
    Exec.store (.str line) destination
    modify fun m => { m with inputCount := m.inputCount + 1 }

/-! ## Arrays -/

/-- Whether a value lies between two integers, the lower included. -/
def between (low : Int) (v : Value) (high : Int) : Except Fault Bool :=
  match Value.compareReal? (.int low) v, Value.compareReal? v (.int high) with
  | some l, some h => .ok (l.any Ordering.isLE && h.any Ordering.isLT)
  | _, _ => .error .mismatch

/-- Checks an array index. -/
def verify (index low high : String) : Exec Unit := do
  let v ← Exec.value index
  let high ← Exec.integer high
  let low ← Exec.integer low
  if !(← Attempt.ofExcept (between low v high)) then
    throw (.outOfBounds (← Attempt.ofExcept v.text) low high)

/-- Stores the address of an array element. -/
def accessElement (base index destination : String) : Exec Unit := do
  let v ← Exec.value index
  let base ← Exec.integer base
  Exec.store (← Attempt.ofExcept (Value.add (.int base) v)) destination

/-! ## Calls -/

/-- Writes a local cell. -/
def writeLocal (t : Ty) (a : Int) (v : Value) : Exec Unit :=
  modify fun m =>
    let locals := m.memory.locals
    { m with
      memory :=
        { m.memory with locals := locals.set t ((locals.get t).put (.ofInt a) v) } }

/-- Binds parameters one after the other. -/
def bind : List ((Kind × Int) × String) → Exec Unit
  | [] => return
  | ((k, a), p) :: rest => do
    let v ← Exec.value p
    match k.ty? with
    | none => throw (.unknownName ((k.name?).getD (toString k.code)))
    | some t =>
      writeLocal t a v
      bind rest

/-- Enters a function: the local cells are saved, and stay in place for the callee. -/
def enter (p : Program) (name : String) (caller : Int) : Exec Int := do
  modify fun m => { m with records := m.memory.locals :: m.records }
  match p.function? name with
  | none => throw (.unknownName name)
  | some f =>
    let ps := (← MonadState.get).parameters.reverse
    bind ((f.parameterKinds.zip f.parameterAddresses).zip ps)
    modify fun m => { m with parameters := [], returns := caller :: m.returns }
    return f.start

/-- The value that a function leaves for its caller. -/
def leftBehind (f : Function) (locals : Bank) : Option (Ty × Int × Value) :=
  match f.result.bind Kind.ty?, f.returnPlace with
  | some t, some (.num a) => ((locals.get t)[Slot.ofInt a]?).map (t, a, ·)
  | _, _ => none

/-- Leaves a function: the saved local cells come back, with the result among them. -/
def leave (p : Program) (name : String) : Exec Int := do
  match p.function? name with
  | none => throw (.unknownName name)
  | some f =>
    let m ← MonadState.get
    match m.records with
    | [] => throw .absent
    | saved :: records =>
      let locals := match leftBehind f m.memory.locals with
        | some (t, a, v) => saved.set t ((saved.get t).put (.ofInt a) v)
        | none => saved
      modify fun m => { m with memory := { m.memory with locals }, records }
      match m.returns with
      | [] => throw .absent
      | caller :: returns =>
        modify fun m => { m with returns }
        return caller + 1

/-! ## Dispatch -/

/-- Tries a routine with fields. The result is the quad to go to, if it is not the next one. -/
def attempt (p : Program) (here : Int) (r : Routine) (fields : List String) : Exec (Option Int) :=
  let done (x : Exec Unit) : Exec (Option Int) := do
    x
    return none
  match r, fields with
  | param, [a] => done (modify fun m => { m with parameters := a :: m.parameters })
  | print, [] => done (printWith "")
  | println, [] => done (printWith "\n")
  | println, [ending] => done (printWith ending)
  | sqrt, [d] => done (storeOf sqrtOf d)
  | log, [d] => done (storeOf logOf d)
  | get, [d] => done do
    let index ← Exec.popValue
    let text ← Exec.popValue
    Exec.store (← Attempt.ofExcept (characterOf text index)) d
  | littleStar, [] => done (playNotes littleStarNotes)
  | note name, [] => done (playNotes [name])
  | length, [d] => done (storeOf lengthOf d)
  | copy, [] => done do
    let destination ← Exec.popParameter
    Exec.store (← Exec.popValue) destination
  | random, [d] => done do
    Exec.store (← nextRandom) d
  | toStr, [d] => done (storeOf (fun v => v.text.map Value.str) d)
  | input, [d] => done (readInput d)
  | floor, [d] => done (storeOf (roundWith Number.floor) d)
  | ceil, [d] => done (storeOf (roundWith Number.ceil) d)
  | goto, [target] => some <$> Exec.integer target
  | gotof, [condition, target] => do
    if (← Exec.value condition).truthy then return none
    some <$> Exec.integer target
  | access, [base, index, d] => done (accessElement base index d)
  | ver, [index, low, high] => done (verify index low high)
  | gosub, [name] => some <$> enter p name here
  | endproc, [name] => some <$> leave p name
  | _, _ => throw .mismatch

/-- Runs an attempt, and another one in its place if it does not fit. -/
def orIfMismatch {α : Type} (first : Exec α) (second : Exec α) : Exec α :=
  tryCatch first fun
    | .mismatch => second
    | f => throw f

/-- Tries a routine without fields. In a program that was compiled, only the reading of input comes
here and does not fit; there is no input left then. -/
def attemptBare (p : Program) (here : Int) (r : Routine) : Exec (Option Int) :=
  orIfMismatch (r.attempt p here []) (throw .inputMismatch)

/-- Further attempts with a second and a third field, if the quad has them. -/
def attemptMore (p : Program) (here : Int) (r : Routine) (a : String) :
    List String → Exec (Option Int)
  | [] => throw .absent
  | b :: rest =>
    orIfMismatch (r.attempt p here [a, b]) <|
      match rest with
      | [] => throw .absent
      | c :: _ => r.attempt p here [a, b, c]

/-- Performs a routine on the fields that follow its name. -/
def perform (p : Program) (here : Int) (name : String) (r : Routine) :
    List String → Exec (Option Int)
  | [] => r.attemptBare p here
  | a :: rest =>
    tryCatch (r.attempt p here [a]) fun
      | .mismatch => r.attemptMore p here a rest
      | .unknownName _ => throw (.unsupported name)
      | f => if f.isPosition then r.attemptBare p here else throw f

end Routine

end Symphony
