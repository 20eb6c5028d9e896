import Mathlib.Data.Option.Basic
import Mathlib.Data.Option.Defs
import Symphony.Compiler.Perform

/-!
# Line numbers

The compiler is told the line of every event, and uses it for nothing but the messages of its
complaints.

**Theorem (`Compiled.ofSource_later`).** A source whose first line has a higher number is compiled
to the same code, or rejected for the same cause. Only the lines that the cause names are higher by
as much.

Lines come in at two places. The scanner counts them, and what it counts is carried through the
trace unchanged (`Trace.ofSource_later`). The compiler's actions get them as an argument
(`Compile.perform_alike`); its state has no line in it.
-/

namespace Symphony

namespace Rejection

/-- The same cause some lines further down. -/
def later (n : Nat) : Rejection → Rejection
  | functionTwice line f => functionTwice (line + n) f
  | variableTwice line name => variableTwice (line + n) name
  | arrayTwice line name => arrayTwice (line + n) name
  | unknownVariable line name => unknownVariable (line + n) name
  | unknownFunction line name => unknownFunction (line + n) name
  | sizeType line actual => sizeType (line + n) actual
  | noOperand line => noOperand (line + n)
  | binaryTypes line operator left right => binaryTypes (line + n) operator left right
  | unaryType line operator actual => unaryType (line + n) operator actual
  | conditionType line statement actual => conditionType (line + n) statement actual
  | wholeArray line => wholeArray (line + n)
  | targetIndexType line actual => targetIndexType (line + n) actual
  | indexType line actual => indexType (line + n) actual
  | notArray line name => notArray (line + n) name
  | assignTypes line right left => assignTypes (line + n) right left
  | argumentCount line given f needed => argumentCount (line + n) given f needed
  | argumentType line f actual number expected => argumentType (line + n) f actual number expected
  | specialArgumentType line f actual number allowed =>
    specialArgumentType (line + n) f actual number allowed
  | breakOutside line => breakOutside (line + n)
  | returnOutside line => returnOutside (line + n)
  | returnInVoid line => returnInVoid (line + n)
  | returnMissing line expected => returnMissing (line + n) expected
  | returnType line f expected actual => returnType (line + n) f expected actual
  | r => r

/-- Causes that hold the description of a token. -/
def isUnexpected : Rejection → Bool
  | unexpected _ => true
  | _ => false

end Rejection

namespace Compile

variable {α β : Type} {n line : Nat}

/-- Two actions do the same, but the causes of the second are some lines further down. -/
def Alike (n : Nat) (x y : Compile α) : Prop :=
  ∀ c, y.runFrom c = ((x.runFrom c).1.mapError (·.later n), (x.runFrom c).2) ∧
    ∀ r, (x.runFrom c).1 = .error r → r.isUnexpected = false

theorem alike_pure (a : α) : Alike n (pure a) (pure a) := fun _ => ⟨rfl, nofun⟩

theorem alike_modify (f : Compiler → Compiler) :
    Alike n (modify f) (modify f) := fun _ => ⟨rfl, nofun⟩

theorem alike_throw {r : Rejection} (hr : r.isUnexpected = false) :
    Alike n (throw r : Compile α) (throw (r.later n)) :=
  fun _ => ⟨rfl, fun _ h => Except.error.inj h ▸ hr⟩

theorem Alike.bind {x y : Compile α} {f g : α → Compile β} (h : Alike n x y)
    (hf : ∀ a, Alike n (f a) (g a)) : Alike n (x >>= f) (y >>= g) := by
  intro c
  obtain ⟨hrun, hcause⟩ := h c
  rw [Attempt.runFrom_bind, Attempt.runFrom_bind, hrun]
  rcases hx : x.runFrom c with ⟨r | a, c'⟩
  · exact ⟨rfl, fun r' hr => hcause r' (by rw [hx]; exact congrArg _ (Except.error.inj hr))⟩
  · exact hf a c'

theorem alike_get {f g : Compiler → Compile α} (h : ∀ c, Alike n (f c) (g c)) :
    Alike n (get >>= f) (get >>= g) :=
  fun c => h c c

theorem Alike.map {x y : Compile α} (h : Alike n x y) (f : α → β) :
    Alike n (f <$> x) (f <$> y) := by
  rw [← bind_pure_comp, ← bind_pure_comp]
  exact h.bind fun a => alike_pure _

theorem alike_ite {p : Prop} [Decidable p] {x y x' y' : Compile α} (h : Alike n x y)
    (h' : Alike n x' y') : Alike n (if p then x else x') (if p then y else y') := by
  split
  · exact h
  · exact h'

/-- A check, and an action that comes after it in any case. -/
theorem alike_check {p : Prop} [Decidable p] {x y x' y' : Compile α} (h : Alike n x y)
    (hfail : Alike n x y → Alike n x' y') : Alike n (if p then x' else x) (if p then y' else y) :=
  alike_ite (hfail h) h

/-! ## Actions -/

theorem emit_alike (q : Quad) :
    Alike n (emit q) (emit q) := alike_ite (alike_modify _) (alike_throw rfl)

theorem push_alike (o : Operand) : Alike n (push o) (push o) := alike_modify _

theorem here_alike : Alike n here here := alike_get fun _ => alike_pure _

theorem complete_alike (i : Nat) (fs : List Field) : Alike n (complete i fs) (complete i fs) :=
  alike_get fun _ => alike_ite (alike_ite (alike_modify _) (alike_throw rfl)) (alike_throw rfl)

theorem allocate_alike (s : Sector) (k : Kind) (m : Int) :
    Alike n (allocate s k m) (allocate s k m) := by
  unfold allocate
  cases k.ty? with
  | none => exact alike_throw rfl
  | some t => exact alike_get fun _ => (alike_modify _).bind fun _ => alike_pure _

theorem pop_alike : Alike n (pop line) (pop (line + n)) := by
  refine alike_get fun c => ?_
  cases c.operands with
  | nil => exact alike_throw rfl
  | cons o rest => exact (alike_modify _).bind fun _ => alike_pure _

theorem named_alike (k : Kind) : Alike n (named k) (named k) := by
  unfold named
  cases k.name? with
  | none => exact alike_throw rfl
  | some name => exact alike_pure name

theorem pushConstant_alike (k : Kind) (v : Value) :
    Alike n (pushConstant k v) (pushConstant k v) := by
  unfold pushConstant
  cases k.ty? with
  | none => exact alike_throw rfl
  | some t =>
    refine alike_get fun c => ?_
    dsimp only
    cases (c.constants.get t).find? (·.1.equal v) with
    | none => exact (allocate_alike _ _ _).bind fun _ => (alike_modify _).bind fun _ => push_alike _
    | some e => exact push_alike _

theorem beginCall_alike (f : Scope) : Alike n (beginCall f line) (beginCall f (line + n)) :=
  alike_get fun _ => alike_check (alike_modify _) fun h => (alike_throw rfl).bind fun _ => h

theorem popCalled_alike : Alike n popCalled popCalled := by
  refine alike_get fun c => ?_
  cases c.called with
  | nil => exact alike_throw rfl
  | cons f rest => exact (alike_modify _).bind fun _ => alike_pure _

theorem readArgument_alike : Alike n (readArgument line) (readArgument (line + n)) :=
  .bind pop_alike fun _ => alike_modify _

theorem checkCount_alike (f : Scope) (needed : Nat) :
    Alike n (checkCount f needed line) (checkCount f needed (line + n)) :=
  alike_get fun _ => alike_ite (alike_throw rfl) (alike_pure _)

theorem passArguments_alike (f : Scope) (i : Nat) (xs : List (Operand × Kind)) :
    Alike n (passArguments f line i xs) (passArguments f (line + n) i xs) := by
  induction xs generalizing i with
  | nil => exact alike_pure _
  | cons x xs ih =>
    exact alike_check ((emit_alike _).bind fun _ => ih (i + 1)) fun h =>
      (named_alike _).bind fun _ => (named_alike _).bind fun _ => (alike_throw rfl).bind fun _ => h

theorem passSpecial_alike (f : Scope) (i : Nat) (xs : List (Operand × List Ty)) :
    Alike n (passSpecial f line i xs) (passSpecial f (line + n) i xs) := by
  induction xs generalizing i with
  | nil => exact alike_pure _
  | cons x xs ih =>
    exact alike_check ((emit_alike _).bind fun _ => ih (i + 1)) fun h =>
      (named_alike _).bind fun _ => (alike_throw rfl).bind fun _ => h

theorem endCall_alike : Alike n (endCall line) (endCall (line + n)) := by
  refine .bind popCalled_alike fun name => alike_get fun c => ?_
  cases c.function? name with
  | none => exact alike_throw rfl
  | some f =>
    refine (checkCount_alike _ _).bind fun _ => alike_get fun _ =>
      (passArguments_alike _ _ _).bind fun _ =>
      (emit_alike _).bind fun _ => (alike_modify _).bind fun _ => ?_
    cases f.result with
    | none => exact alike_pure _
    | some k =>
      refine alike_get fun _ => (allocate_alike _ _ _).bind fun _ => (push_alike _).bind fun _ => ?_
      cases f.returnPlace with
      | none => exact (alike_modify _).bind fun _ => emit_alike _
      | some place => exact emit_alike _

theorem endSpecial_alike : Alike n (endSpecial line) (endSpecial (line + n)) := by
  refine .bind popCalled_alike fun name => ?_
  cases name.bind Special.signature? with
  | none => exact alike_throw rfl
  | some s =>
    refine (checkCount_alike _ _).bind fun _ => alike_get fun _ =>
      (passSpecial_alike _ _ _).bind fun _ => ?_
    cases s.result with
    | none => exact (emit_alike _).bind fun _ => alike_modify _
    | some t =>
      exact (allocate_alike _ _ _).bind fun _ => (emit_alike _).bind fun _ =>
        (push_alike _).bind fun _ => alike_modify _

theorem completeSelfCalls_alike (place : Field) (xs : List (Nat × Int)) :
    Alike n (completeSelfCalls place xs) (completeSelfCalls place xs) := by
  induction xs with
  | nil => exact alike_pure _
  | cons x xs ih => exact (complete_alike _ _).bind fun _ => ih

theorem giveBack_alike : Alike n (giveBack line) (giveBack (line + n)) := by
  refine alike_get fun c => alike_check (alike_get fun _ =>
    alike_check (.bind pop_alike fun x => ?_)
    fun h => (alike_throw rfl).bind fun _ => h) fun h => (alike_throw rfl).bind fun _ => h
  dsimp only
  cases c.current.result with
  | none => exact alike_throw rfl
  | some k =>
    exact alike_check ((alike_modify _).bind fun _ => alike_get fun _ =>
      completeSelfCalls_alike _ _)
      fun h => (named_alike _).bind fun _ => (named_alike _).bind fun _ =>
        (alike_throw rfl).bind fun _ => h

theorem binary_alike (o : String) (l r : Operand) :
    Alike n (binary o l r line) (binary o l r (line + n)) := by
  have hresult : Alike n (binaryResult o l.kind r.kind) (binaryResult o l.kind r.kind) := by
    unfold binaryResult
    cases l.kind.row? with
    | none => exact alike_pure _
    | some t =>
      cases r.kind.row? with
      | none => exact alike_pure _
      | some u =>
        cases BinOp.ofSymbol? o with
        | none => exact alike_throw rfl
        | some o => exact alike_pure _
  refine hresult.bind fun t => ?_
  cases t with
  | none => exact (named_alike _).bind fun _ => (named_alike _).bind fun _ => alike_throw rfl
  | some t => exact (allocate_alike _ _ _).bind fun _ => (emit_alike _).bind fun _ => alike_pure _

theorem foldLeft_alike (l : Operand) (xs : List (Operand × String)) :
    Alike n (foldLeft line l xs) (foldLeft (line + n) l xs) := by
  induction xs generalizing l with
  | nil => exact alike_pure _
  | cons x xs ih => exact (binary_alike _ _ _).bind fun o => ih o

theorem operateLeft_alike (o : String) :
    Alike n (operateLeft o line) (operateLeft o (line + n)) := by
  refine (alike_modify _).bind fun _ => alike_get fun c => ?_
  dsimp only
  cases c.operands.drop c.chained.length with
  | nil => exact alike_throw rfl
  | cons first below => exact (foldLeft_alike _ _).bind fun _ => alike_modify _

theorem operateUnary_alike (o : String) :
    Alike n (operateUnary o line) (operateUnary o (line + n)) := by
  refine .bind pop_alike fun x => ?_
  have hresult : Alike n (unaryResult o x.kind) (unaryResult o x.kind) := by
    unfold unaryResult
    cases x.kind.row? with
    | none => exact alike_pure _
    | some t =>
      cases UnOp.ofSymbol? o with
      | none => exact alike_throw rfl
      | some o => exact alike_pure _
  refine hresult.bind fun r => ?_
  cases r with
  | none => exact (named_alike _).bind fun _ => alike_throw rfl
  | some r =>
    exact alike_ite ((alike_pure _).bind fun _ => (emit_alike _).bind fun _ => push_alike _)
      (((allocate_alike _ _ _).map _).bind fun _ => (emit_alike _).bind fun _ => push_alike _)

theorem declare_alike (d : Declaration) (isGlobal : Bool) :
    Alike n (declare d isGlobal line) (declare d isGlobal (line + n)) := by
  refine alike_get fun c => ?_
  dsimp only
  cases d.extent with
  | none =>
    exact alike_check ((allocate_alike _ _ _).bind fun _ => alike_modify _) fun h =>
      (alike_throw rfl).bind fun _ => h
  | some e =>
    exact alike_check (alike_check ((allocate_alike _ _ _).bind fun _ => alike_modify _) fun h =>
      (named_alike _).bind fun _ => (alike_throw rfl).bind fun _ => h) fun h =>
        (alike_throw rfl).bind fun _ => h

theorem declareParameters_alike (isGlobal : Bool) (ds : List Declaration) :
    Alike n (declareParameters isGlobal line ds) (declareParameters isGlobal (line + n) ds) := by
  induction ds with
  | nil => exact alike_pure _
  | cons d ds ih =>
    exact (alike_modify _).bind fun _ => (declare_alike _ _).bind fun _ =>
      (alike_modify _).bind fun _ => ih

theorem declareAll_alike (isGlobal : Bool) (ds : List Declaration) :
    Alike n (declareAll isGlobal line ds) (declareAll isGlobal (line + n) ds) := by
  induction ds with
  | nil => exact alike_pure _
  | cons d ds ih => exact (declare_alike _ _).bind fun _ => ih

theorem declareVariables_alike (params vars : List Declaration) (isGlobal : Bool) :
    Alike n (declareVariables params vars isGlobal line)
      (declareVariables params vars isGlobal (line + n)) :=
  (alike_modify _).bind fun _ => (declareParameters_alike _ _).bind fun _ => declareAll_alike _ _

theorem defineFunction_alike (result : Option Kind) (f : Scope) :
    Alike n (defineFunction result f line) (defineFunction result f (line + n)) :=
  alike_get fun _ => alike_check (alike_modify _) fun h => (alike_throw rfl).bind fun _ => h

theorem endFunction_alike : Alike n (endFunction line) (endFunction (line + n)) := by
  refine alike_get fun c => ?_
  have hclose := (alike_modify (n := n) fun c =>
    { c.updateCurrent (fun f => { f with declared := [] }) with scope := none }).bind fun _ =>
      emit_alike [.word "ENDPROC", .word c.current.name.text]
  dsimp only
  cases c.current.result with
  | none => exact hclose
  | some k =>
    cases c.current.returnPlace with
    | none => exact (named_alike _).bind fun _ => alike_throw rfl
    | some place => exact hclose

theorem lookup_alike (name : String) : Alike n (lookup name line) (lookup name (line + n)) := by
  refine alike_get fun c => ?_
  cases c.denoted? name with
  | none => exact alike_throw rfl
  | some v => exact alike_pure _

theorem element_alike (base : Int) (elements : Kind × Int) (index : Field) :
    Alike n (element base elements index) (element base elements index) :=
  (emit_alike _).bind fun _ => (allocate_alike _ _ _).bind fun _ => (emit_alike _).bind fun _ =>
    alike_pure _

theorem elements_alike (v : Variable) (name : String) (index : Field) :
    Alike n (match v.elements with
      | none => throw (.notArray line name)
      | some elements => element v.address elements index)
    (match v.elements with
      | none => throw (.notArray (line + n) name)
      | some elements => element v.address elements index) := by
  cases v.elements with
  | none => exact alike_throw rfl
  | some e => exact element_alike _ _ _

theorem access_alike (name : String) : Alike n (access name line) (access name (line + n)) :=
  .bind pop_alike fun _ => alike_check ((lookup_alike _).bind fun v => elements_alike v _ _)
    fun h => (named_alike _).bind fun _ => (alike_throw rfl).bind fun _ => h

theorem target_alike (v : Variable) (name : String) :
    Alike n (target v name line) (target v name (line + n)) := by
  refine alike_get fun c => ?_
  cases c.offset with
  | none => exact alike_check (alike_pure _) fun h => (alike_throw rfl).bind fun _ => h
  | some index =>
    exact (alike_modify _).bind fun _ => alike_check (elements_alike v _ _) fun h =>
      (named_alike _).bind fun _ => (alike_throw rfl).bind fun _ => h

theorem assign_alike (name : String) : Alike n (assign name line) (assign name (line + n)) :=
  (lookup_alike _).bind fun _ => (target_alike _ _).bind fun _ => .bind pop_alike fun _ =>
    alike_ite (emit_alike _) ((named_alike _).bind fun _ => (named_alike _).bind fun _ =>
      alike_throw rfl)

theorem popJump_alike : Alike n popJump popJump := by
  refine alike_get fun c => ?_
  cases c.jumps with
  | nil => exact alike_throw rfl
  | cons i rest => exact (alike_modify _).bind fun _ => alike_pure _

theorem landHere_alike (i : Nat) : Alike n (landHere i) (landHere i) :=
  .bind here_alike fun _ => complete_alike _ _

theorem landAll_alike (is : List Nat) : Alike n (landAll is) (landAll is) := by
  induction is with
  | nil => exact alike_pure _
  | cons i is ih => exact (landHere_alike i).bind fun _ => ih

theorem testCondition_alike (statement : String) :
    Alike n (testCondition statement line) (testCondition statement (line + n)) :=
  .bind pop_alike fun _ => alike_ite (.bind here_alike fun _ => (alike_modify _).bind fun _ =>
    emit_alike _)
    ((named_alike _).bind fun _ => alike_throw rfl)

theorem breakLoop_alike : Alike n (breakLoop line) (breakLoop (line + n)) :=
  alike_get fun _ => alike_check (.bind here_alike fun _ => (alike_modify _).bind fun _ =>
    emit_alike _)
    fun h => (alike_throw rfl).bind fun _ => h

/-- What the compiler does at an event does not depend on the line, but for the line that it
names. -/
theorem perform_alike (s : Step) : Alike n (perform s) (perform { s with line := s.line + n }) := by
  obtain ⟨e, line⟩ := s
  cases e with
  | declareGlobals vars => exact (emit_alike _).bind fun _ => declareVariables_alike _ _ _
  | enterMain => exact landHere_alike _
  | finish => exact alike_modify _
  | defineFunction => exact defineFunction_alike _ _
  | declareLocals => exact declareVariables_alike _ _ _
  | endFunction => exact endFunction_alike
  | constant => exact pushConstant_alike _ _
  | dropSize => exact .bind pop_alike fun _ => alike_pure _
  | useVariable => exact (lookup_alike _).bind fun _ => push_alike _
  | useElement => exact (access_alike _).bind fun _ => push_alike _
  | selectElement => exact .bind pop_alike fun _ => alike_modify _
  | assign => exact assign_alike _
  | power =>
    exact .bind pop_alike fun _ => .bind pop_alike fun _ =>
      (binary_alike _ _ _).bind fun _ => push_alike _
  | chain | beginSpecial => exact alike_modify _
  | fold => exact operateLeft_alike _
  | unary => exact operateUnary_alike _
  | breakLoop => exact breakLoop_alike
  | giveBack => exact giveBack_alike
  | beginCall => exact beginCall_alike _
  | endCall => exact endCall_alike
  | endSpecial => exact endSpecial_alike
  | argument => exact readArgument_alike
  | testIf => exact testCondition_alike _
  | closeIf => exact .bind popJump_alike fun _ => landHere_alike _
  | elseBranch =>
    exact .bind popJump_alike fun _ => .bind here_alike fun _ => (alike_modify _).bind fun _ =>
      (emit_alike _).bind
      fun _ => landHere_alike _
  | markLoop => exact .bind here_alike fun _ => alike_modify _
  | testLoop => exact (testCondition_alike _).bind fun _ => alike_modify _
  | closeLoop =>
    exact .bind popJump_alike fun _ => .bind popJump_alike fun _ => (emit_alike _).bind fun _ =>
      (landHere_alike _).bind fun _ => alike_get fun _ => (landAll_alike _).bind fun _ =>
        alike_modify _
  | leaveLoop => exact alike_modify _

end Compile

/-! ## Traces -/

/-- The same lexeme some lines further down. -/
def Lexeme.later (n : Nat) (l : Lexeme) : Lexeme :=
  { l with line := l.line + n }

def Ending.later (n : Nat) : Ending → Ending
  | unexpected l => unexpected (l.map (·.later n))
  | e => e

/-- The same trace some lines further down. -/
def Trace.later (n : Nat) (t : Trace) : Trace where
  steps := t.steps.map fun s => { s with line := s.line + n }
  ending := t.ending.later n
  line := t.line + n

theorem Piece.place_later (n line pos : Nat) (ps : List Piece) :
    place (line + n) pos ps = ((place line pos ps).1.map (·.later n),
      (place line pos ps).2 + n) := by
  induction ps generalizing line pos with
  | nil => rfl
  | cons p ps ih =>
    cases p with
    | token t text => simp [place, ih, Lexeme.later]
    | newlines text => rw [place, Nat.add_right_comm, ih, place]
    | _ => rw [place, ih, place] <;> simp

namespace Trace

theorem later_prepend (n line : Nat) (events : List Event) (t : Trace) :
    (prepend events line t).later n = prepend events (line + n) (t.later n) := by
  simp [prepend, later]

theorem ofGoals_later (n last : Nat) (stop : Stop) (goals : List Goal) (line : Nat)
    (ls : List Lexeme) :
    ofGoals stop (last + n) goals (line + n) (ls.map (·.later n)) =
      (ofGoals stop last goals line ls).later n := by
  induction ls generalizing goals line with
  | nil =>
    rw [List.map_nil, ofGoals, ofGoals, later_prepend]
    cases stop with
    | finished =>
      dsimp only
      rw [later_prepend]
      cases (close (release goals).2).2 <;> rfl
    | _ => rfl
  | cons l ls ih =>
    rw [List.map_cons, ofGoals, ofGoals, later_prepend, later_prepend]
    dsimp only
    rw [show (l.later n).token = l.token from rfl]
    cases (take l.token (release goals).2).2 with
    | none => rfl
    | some rest =>
      exact congrArg (fun t => prepend _ (line + n) (prepend _ (l.line + n) t)) (ih rest l.line)

/-- A source that begins some lines further down has the same trace some lines further down. -/
theorem ofSource_later (n line : Nat) (source : String) :
    ofSource (line + n) source = (ofSource line source).later n := by
  rw [ofSource, ofSource, ofLexemes, ofLexemes, Lexemes.scan, Lexemes.scan, Piece.place_later]
  exact ofGoals_later n _ _ _ line _

end Trace

/-! ## Sources -/

/-- The same cause some lines further down. The description of a token that cannot stand where it
does has its line. -/
inductive Rejection.Later (n : Nat) : Rejection → Rejection → Prop
  | cause {r : Rejection} : r.isUnexpected = false → Later n r (r.later n)
  | token (l : Lexeme) : Later n (.unexpected l.description) (.unexpected (l.later n).description)
  | ended : Later n (.unexpected "None") (.unexpected "None")

namespace Compiled

/-- What was compiled from the same source some lines further down. -/
structure Later (n : Nat) (c c' : Compiled) : Prop where
  state : c'.state = c.state
  rejection : Option.Rel (Rejection.Later n) c.rejection c'.rejection
  line : c'.line = c.line + n

theorem ofSteps_later (n last : Nat) (ending : Ending) (steps : List Step) (c : Compiler) :
    Later n (ofSteps ending last steps c)
      (ofSteps (ending.later n) (last + n) (steps.map fun s =>
        { s with line := s.line + n }) c) := by
  induction steps generalizing c with
  | nil =>
    refine ⟨rfl, ?_, rfl⟩
    cases ending with
    | accepted => exact .none
    | unexpected l =>
      cases l with
      | none => exact .some .ended
      | some l => exact .some (.token l)
    | illegal | overlong => exact .some (.cause rfl)
  | cons s steps ih =>
    obtain ⟨hrun, hcause⟩ := Compile.perform_alike (n := n) s c
    rw [List.map_cons, ofSteps, ofSteps, hrun]
    rcases hs : (Compile.perform s).runFrom c with ⟨r | a, c'⟩
    · exact ⟨rfl, .some (.cause (hcause r (by rw [hs]))), rfl⟩
    · exact ih c'

/-- Where the first line of a source is counted from makes no difference but for the lines that are
named. -/
theorem ofSource_later (n line : Nat) (source : String) :
    Later n (ofSource line source) (ofSource (line + n) source) := by
  rw [ofSource, ofSource, ofTrace, ofTrace, Trace.ofSource_later]
  exact ofSteps_later n _ _ _ {}

end Compiled

end Symphony
