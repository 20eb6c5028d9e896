import Symphony.Compiler.Call
import Symphony.Compiler.Declare
import Symphony.Compiler.Jump
import Symphony.Compiler.Operate
import Symphony.Trace

/-!
# Compiling a program

`perform` is what the compiler does at each parse event; `compile` runs it over the trace of a
source until the first rejection, or to the way the trace ends.
-/

namespace Symphony

/-- What the compiler does at a parse event. -/
def Compile.perform (s : Step) : Compile Unit :=
  let line := s.line
  match s.event with
  | .declareGlobals vars => do
    emit [.word "GOTO"]
    declareVariables [] vars true line
  | .enterMain => enterMain
  | .finish => modify fun c => { c with finished := true }
  | .defineFunction result name => defineFunction (result.map Kind.value) (some name) line
  | .declareLocals params vars => declareVariables params vars false line
  | .endFunction => endFunction line
  | .constant t v => pushConstant (.value t) v
  | .dropSize => do
    let _ ← pop line
  | .useVariable name => do
    let v ← lookup name line
    push ⟨v.kind, .num v.address⟩
  | .useElement name => do
    push (← access name line)
  | .selectElement => do
    let index ← pop line
    modify fun c => { c with offset := some index }
  | .assign name => assign name line
  | .power => operateRight BinOp.pow.symbol line
  | .chain o => chain o.symbol
  | .fold o => operateLeft o.symbol line
  | .unary o => operateUnary o.symbol line
  | .breakLoop => breakLoop line
  | .giveBack => giveBack line
  | .beginCall name => beginCall (some name) line
  | .endCall _ => endCall line
  | .beginSpecial name => beginSpecial (some name)
  | .endSpecial _ => endSpecial line
  | .argument => readArgument line
  | .testIf => testCondition "if" line
  | .closeIf => closeIf
  | .elseBranch => elseBranch
  | .markLoop => markLoop
  | .testLoop => do
    testCondition "while" line
    countLoops 1
  | .closeLoop => closeLoop
  | .leaveLoop => countLoops (-1)

/-- Why a trace that ends this way is rejected, if it is. -/
def Ending.rejection? : Ending → Option Rejection
  | accepted => none
  | unexpected l => some (.unexpected ((l.map Lexeme.description).getD "None"))
  | illegal c => some (.illegal c)
  | overlong => some .overlongInteger

/-- Why a source on which scanning stops this way is rejected, if it is. -/
def Stop.rejection? : Stop → Option Rejection
  | finished => none
  | illegal c => some (.illegal c)
  | overlong => some .overlongInteger

/-- The outcome of compiling a source. -/
structure Compiled where
  state : Compiler
  rejection : Option Rejection
  /-- The last line that was read. -/
  line : Nat

namespace Compiled

/-- Performs steps until one is rejected; after all of them the trace ends as given. -/
def ofSteps (ending : Ending) (last : Nat) : List Step → Compiler → Compiled
  | [], c => ⟨c, ending.rejection?, last⟩
  | s :: rest, c =>
    match (Compile.perform s).runFrom c with
    | (.ok _, c) => ofSteps ending last rest c
    | (.error r, c) => ⟨c, some r, s.line⟩

def ofTrace (t : Trace) : Compiled :=
  ofSteps t.ending t.line t.steps {}

/-- Compiles a source whose first line has the given number. -/
def ofSource (line : Nat) (source : String) : Compiled :=
  ofTrace (Trace.ofSource line source)

end Compiled

end Symphony
