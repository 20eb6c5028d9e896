import Mathlib.Tactic.Common
import Symphony.Proofs.Actions
import Symphony.Proofs.Composition
import Symphony.Proofs.Parsing

/-!
# Compilation as a run over a tree

**Theorem (`Compiled.exists_runs`).** If a source is accepted, the compiler has taken all events of
a tree of that source, one after the other.

Most events only read operands. They are *quiet*: they leave jumps and functions alone and add quads
that go on to the next one. What is not quiet is the subject of `Proofs.Layout`.
-/

namespace Symphony

variable {c c' : Compiler} {es : List Event} {e : Event} {o : Operand} {qs : List Quad}

namespace Compiler

/-- Events are taken one after the other, each in a given way. -/
inductive RunsBy (A : Event → Compiler → Compiler → Prop) : List Event → Compiler → Compiler → Prop
  | nil (c : Compiler) : RunsBy A [] c c
  | cons {e : Event} {es : List Event} {c c' c'' : Compiler} :
      A e c c' → RunsBy A es c' c'' → RunsBy A (e :: es) c c''

/-- The compiler takes events one after the other. -/
abbrev Runs : List Event → Compiler → Compiler → Prop := RunsBy Acts

section

variable {A : Event → Compiler → Compiler → Prop} {c'' : Compiler}

theorem runs_cons : RunsBy A (e :: es) c c'' ↔ ∃ c', A e c c' ∧ RunsBy A es c' c'' := by
  constructor
  · rintro (_ | ⟨h, h'⟩)
    exact ⟨_, h, h'⟩
  · rintro ⟨_, h, h'⟩
    exact .cons h h'

theorem runs_nil : RunsBy A [] c c' ↔ c' = c := by
  constructor
  · rintro ⟨⟩
    rfl
  · rintro rfl
    exact .nil _

theorem runs_singleton : RunsBy A [e] c c' ↔ A e c c' := by
  simp [runs_cons, runs_nil]

theorem runs_append {xs ys : List Event} :
    RunsBy A (xs ++ ys) c c'' ↔ ∃ c', RunsBy A xs c c' ∧ RunsBy A ys c' c'' := by
  induction xs generalizing c with
  | nil => simp [runs_nil]
  | cons x xs ih =>
    simp only [List.cons_append, runs_cons, ih]
    constructor
    · rintro ⟨c₁, h₁, c₂, h₂, h₃⟩
      exact ⟨c₂, ⟨c₁, h₁, h₂⟩, h₃⟩
    · rintro ⟨c₂, ⟨c₁, h₁, h₂⟩, h₃⟩
      exact ⟨c₁, h₁, c₂, h₂, h₃⟩

theorem RunsBy.imp {B : Event → Compiler → Compiler → Prop} (hAB : ∀ e c c', A e c c' → B e c c')
    (h : RunsBy A es c c') : RunsBy B es c c' := by
  induction h with
  | nil => exact .nil _
  | cons h _ ih => exact .cons (hAB _ _ _ h) ih

/-- Events lead to one state only. -/
theorem RunsBy.unique (h : Runs es c c') (h' : Runs es c c'') : c' = c'' := by
  induction h with
  | nil => exact (runs_nil.1 h').symm
  | cons h _ ih =>
    obtain ⟨_, h₁, h₂⟩ := runs_cons.1 h'
    obtain rfl := h.unique h₁
    exact ih h₂

end

end Compiler

namespace Compiled

open Compiler

theorem runs_ofSteps {ending : Ending} {last : Nat} {steps : List Step}
    (h : (ofSteps ending last steps c).rejection = none) :
    ending = .accepted ∧ Runs (steps.map Step.event) c (ofSteps ending last steps c).state := by
  induction steps generalizing c with
  | nil =>
    refine ⟨?_, .nil _⟩
    cases ending <;> first | rfl | cases h
  | cons s steps ih =>
    simp only [ofSteps] at h ⊢
    split at h
    case h_1 c' hs =>
      obtain ⟨hend, hruns⟩ := ih h
      exact ⟨hend, .cons (Compile.acts_of_perform hs) hruns⟩
    case h_2 => cases h

/-- An accepted source is that of a tree, and the compiler has taken the events of the tree. -/
theorem exists_runs {line : Nat} {source : String} (h : (ofSource line source).rejection = none) :
    ∃ p : Tree, p.events = (Trace.ofSource line source).events ∧
      Runs p.events {} (ofSource line source).state := by
  obtain ⟨hend, hruns⟩ := runs_ofSteps h
  obtain ⟨p, hp⟩ := Trace.exists_tree hend
  refine ⟨p, hp, ?_⟩
  rw [hp]
  exact hruns

end Compiled

/-! ## Quiet events -/

/-- Events that deal with operands only. -/
def Event.isQuiet : Event → Bool
  | .constant .. | .dropSize | .useVariable _ | .useElement _ | .selectElement | .assign _ | .power
  | .chain _ | .fold _ | .unary _ | .beginCall _ | .endCall _ | .beginSpecial _ | .endSpecial _
  | .argument => true
  | _ => false

theorem Links.quiet_operators (l : Links) : ∀ ev ∈ l.operators, ev.isQuiet = true := by
  cases l with
  | nil => exact List.forall_mem_nil _
  | cons _ _ rest =>
    exact List.forall_mem_append.2 ⟨rest.quiet_operators, List.forall_mem_singleton.2 rfl⟩

/-- The events of expressions are quiet. -/
theorem Expr.quiet (e : Expr) : ∀ ev ∈ e.events, ev.isQuiet = true := by
  have happend {xs ys : List Event} (hx : ∀ ev ∈ xs, ev.isQuiet = true)
      (hy : ∀ ev ∈ ys, ev.isQuiet = true) :
      ∀ ev ∈ xs ++ ys, ev.isQuiet = true := List.forall_mem_append.2 ⟨hx, hy⟩
  refine e.composed (P := fun es => ∀ ev ∈ es, ev.isQuiet = true)
    { nil := List.forall_mem_nil _
      append := happend
      single := fun ev hev => List.forall_mem_singleton.2 ?_
      sign := fun _ => List.forall_mem_singleton.2 rfl
      update := fun _ _ h => happend h (List.forall_mem_singleton.2 rfl)
      chain := fun l _ => happend l.quiet_operators (List.forall_mem_singleton.2 rfl)
      call := fun _ n _ h => ?_
      special := fun _ n _ h => ?_ }
  · cases ev <;> first | rfl | cases hev
  all_goals
    refine happend (List.forall_mem_cons.2 ⟨rfl, happend h fun ev hev => ?_⟩)
      (List.forall_mem_singleton.2 rfl)
    rw [List.eq_of_mem_replicate hev]
    rfl

theorem Group.quiet_sizes (ns : List (String × Option Int)) :
    ∀ ev ∈ Group.sizes ns, ev.isQuiet = true := by
  fun_induction Group.sizes ns with
  | case1 => simp
  | case2 _ rest ih => exact ih
  | case3 _ n rest ih =>
    intro ev hev
    rcases List.mem_cons.1 hev with rfl | hev
    · rfl
    · rcases List.mem_cons.1 hev with rfl | hev
      · rfl
      · exact ih ev hev

theorem quiet_sizesOf (gs : List Group) : ∀ ev ∈ sizesOf gs, ev.isQuiet = true := by
  intro ev hev
  obtain ⟨g, -, hg⟩ := List.mem_flatMap.1 hev
  exact Group.quiet_sizes g.names ev hg

/-! ## What quiet events do -/

namespace Quad

/-- After a plain quad the next one is executed, unless a function is entered. -/
def Plain (q : Quad) : Prop :=
  ∃ w fs, q = .word w :: fs ∧ w ≠ "GOTO" ∧ w ≠ "GOTOF" ∧ w ≠ "ENDPROC"

end Quad

/-! ## Names that are not those of jumps -/

theorem BinOp.ne_jump_of_ofSymbol? {op : String} {o : BinOp} (h : BinOp.ofSymbol? op = some o) :
    op ≠ "GOTO" ∧ op ≠ "GOTOF" ∧ op ≠ "ENDPROC" := by
  have hop : o.symbol = op := by simpa using List.find?_some h
  rw [← hop]
  cases o <;> decide

theorem UnOp.mnemonic_ne_jump (o : UnOp) :
    o.mnemonic ≠ "GOTO" ∧ o.mnemonic ≠ "GOTOF" ∧ o.mnemonic ≠ "ENDPROC" := by
  cases o <;> decide

theorem Special.ne_jump_of_signature? {name : String} {s : Special.Signature}
    (h : Special.signature? name = some s) : name ≠ "GOTO" ∧ name ≠ "GOTOF" ∧ name ≠ "ENDPROC" := by
  refine ⟨?_, ?_, ?_⟩ <;>
  · rintro rfl
    simp [Special.signature?] at h

namespace Compiler

/-- What quiet events leave alone, and what they may add. -/
structure Quiet (c c' : Compiler) : Prop where
  jumps : c'.jumps = c.jumps
  breaks : c'.breaks = c.breaks
  openLoops : c'.openLoops = c.openLoops
  functions : c'.functions = c.functions
  scope : c'.scope = c.scope
  quads : ∃ qs : List Quad, c'.quads.toList = c.quads.toList ++ qs ∧ ∀ q ∈ qs, q.Plain
  selfCalls : ∀ p ∈ c'.selfCalls, p ∈ c.selfCalls ∨ c'.quads[p.1]? = some [.word "="]

theorem Quiet.refl (c : Compiler) : Quiet c c :=
  ⟨rfl, rfl, rfl, rfl, rfl, ⟨[], by simp, by simp⟩, fun _ h => .inl h⟩

theorem getElem?_of_append {xs ys : Array Quad} (h : ys.toList = xs.toList ++ qs) {i : Nat}
    {q : Quad} (hq : xs[i]? = some q) : ys[i]? = some q := by
  rw [← Array.getElem?_toList] at hq ⊢
  rw [h, List.getElem?_append_left (List.getElem?_eq_some_iff.1 hq).1, hq]

theorem getElem?_before_append {xs ys : Array Quad} (h : ys.toList = xs.toList ++ qs) {i : Nat}
    {q : Quad} (hi : i < xs.size) (hq : ys[i]? = some q) : xs[i]? = some q := by
  have hold := Array.getElem?_eq_getElem hi
  exact hold.trans ((getElem?_of_append h hold).symm.trans hq)

theorem Quiet.trans {c₁ c₂ c₃ : Compiler} (h : Quiet c₁ c₂) (h' : Quiet c₂ c₃) : Quiet c₁ c₃ := by
  obtain ⟨qs, hqs, hplain⟩ := h.quads
  obtain ⟨qs', hqs', hplain'⟩ := h'.quads
  refine ⟨h'.jumps.trans h.jumps, h'.breaks.trans h.breaks, h'.openLoops.trans h.openLoops,
    h'.functions.trans h.functions, h'.scope.trans h.scope, ⟨qs ++ qs', ?_, ?_⟩, fun p hp => ?_⟩
  · rw [hqs', hqs, List.append_assoc]
  · intro q hq
    rcases List.mem_append.1 hq with hq | hq
    exacts [hplain q hq, hplain' q hq]
  · rcases h'.selfCalls p hp with hp | hp
    · rcases h.selfCalls p hp with hp | hp
      · exact .inl hp
      · exact .inr (getElem?_of_append hqs' hp)
    · exact .inr hp

/-- A change of what does not matter here. -/
theorem Quiet.keep (h₁ : c'.jumps = c.jumps) (h₂ : c'.breaks = c.breaks)
    (h₃ : c'.openLoops = c.openLoops) (h₄ : c'.functions = c.functions) (h₅ : c'.scope = c.scope)
    (h₆ : c'.quads = c.quads) (h₇ : c'.selfCalls = c.selfCalls) : Quiet c c' :=
  ⟨h₁, h₂, h₃, h₄, h₅, ⟨[], by simp [h₆], by simp⟩, fun _ h => .inl (h₇ ▸ h)⟩

section

theorem Quiet.emitAll (h : Quiet c c') (hqs : ∀ q ∈ qs, q.Plain) : Quiet c (c'.emitAll qs) :=
  h.trans ⟨rfl, rfl, rfl, rfl, rfl, ⟨qs, Array.toList_appendList, hqs⟩, fun _ h => .inl h⟩

theorem Quiet.emit (h : Quiet c c') {w : String} {fs : List Field}
    (hw : w ≠ "GOTO" ∧ w ≠ "GOTOF" ∧ w ≠ "ENDPROC") : Quiet c (c'.emit (.word w :: fs)) := by
  have hq : ∀ q ∈ [Field.word w :: fs], Quad.Plain q := by simpa [Quad.Plain] using hw
  exact h.emitAll hq

theorem Quiet.reserve (h : Quiet c c') {s : Sector} {t : Ty} {n : Int} :
    Quiet c (c'.reserve s t n) :=
  h.trans (.keep rfl rfl rfl rfl rfl rfl rfl)

theorem Quiet.push (h : Quiet c c') : Quiet c (c'.push o) :=
  h.trans (.keep rfl rfl rfl rfl rfl rfl rfl)

theorem Quiet.point (h : Quiet c c') {base n : Int} {t : Ty} {index : Field} :
    Quiet c (c'.point base n t index) :=
  ((h.emit (by decide)).reserve).emit (by decide)

theorem plain_passing (i : Nat) (xs : List Operand) : ∀ q ∈ passing i xs, q.Plain := by
  induction xs generalizing i with
  | nil => simp [passing]
  | cons x xs ih =>
    intro q hq
    rcases List.mem_cons.1 hq with rfl | hq
    · exact ⟨_, _, rfl, by decide⟩
    · exact ih (i + 1) q hq

theorem Quiet.enterFunction (c : Compiler) (name : Scope) (rest : List Scope) :
    Quiet c (c.enterFunction name rest) :=
  have h : Quiet c { c with called := rest } := .keep rfl rfl rfl rfl rfl rfl rfl
  ((h.emitAll (plain_passing 1 c.arguments)).emit (by decide)).trans
    (.keep rfl rfl rfl rfl rfl rfl rfl)

theorem Operates.quiet {op : String} {l r : Operand} (h : Operates op l r c o c') : Quiet c c' := by
  cases h with
  | mk _ _ hop _ => exact (Quiet.refl c).reserve.emit (BinOp.ne_jump_of_ofSymbol? hop)

theorem Folds.quiet {l : Operand} {rest : List (Operand × String)} (h : Folds l rest c o c') :
    Quiet c c' := by
  induction h with
  | nil => exact .refl _
  | cons h _ ih => exact h.quiet.trans ih

/-- Quiet events go on to the next quad and leave jumps and functions alone. -/
theorem Acts.quiet (h : Acts e c c') (he : e.isQuiet = true) : Quiet c c' := by
  cases h with
  | oldConstant | newConstant | dropSize | useVariable | selectElement | chain | beginCall
  | beginSpecial | argument => exact .keep rfl rfl rfl rfl rfl rfl rfl
  | useElement =>
    refine .push (.point ?_)
    exact .keep rfl rfl rfl rfl rfl rfl rfl
  | assignVariable =>
    refine .emit ?_ (by decide)
    exact .keep rfl rfl rfl rfl rfl rfl rfl
  | assignElement =>
    refine .emit (.point ?_) (by decide)
    exact .keep rfl rfl rfl rfl rfl rfl rfl
  | power _ h =>
    refine .push (.trans ?_ h.quiet)
    exact .keep rfl rfl rfl rfl rfl rfl rfl
  | fold _ h =>
    refine .trans (.trans ?_ h.quiet) ?_ <;> exact .keep rfl rfl rfl rfl rfl rfl rfl
  | update =>
    refine .push (.emit ?_ (UnOp.mnemonic_ne_jump _))
    exact .keep rfl rfl rfl rfl rfl rfl rfl
  | unary =>
    refine .push (.emit (.reserve ?_) (UnOp.mnemonic_ne_jump _))
    exact .keep rfl rfl rfl rfl rfl rfl rfl
  | callVoid => exact .enterFunction _ _ _
  | callKnown => exact .emit (.push (.reserve (.enterFunction _ _ _))) (by decide)
  | @callSelf _ _ name rest _ k t =>
    let o : Operand := ⟨k, .num (c.next (variableSector (c.scope == none)) t)⟩
    have h : Quiet c ((((c.enterFunction name rest).reserve (variableSector (c.scope == none)) t
        1).push o).emit [.word "="]) :=
      .emit (.push (.reserve (.enterFunction _ _ _))) (by decide)
    refine ⟨h.jumps, h.breaks, h.openLoops, h.functions, h.scope, h.quads, fun p hp => ?_⟩
    rcases List.mem_append.1 hp with hp | hp
    · exact .inl hp
    · right
      rw [List.mem_singleton.1 hp]
      exact Array.getElem?_push_size
  | @specialVoid _ _ name rest _ _ hsig =>
    have h : Quiet c { c with called := rest } := .keep rfl rfl rfl rfl rfl rfl rfl
    exact ((h.emitAll (plain_passing 1 c.arguments)).emit
      (Special.ne_jump_of_signature? hsig)).trans (.keep rfl rfl rfl rfl rfl rfl rfl)
  | @specialValue _ _ name rest _ _ _ hsig =>
    have h : Quiet c { c with called := rest } := .keep rfl rfl rfl rfl rfl rfl rfl
    exact ((h.emitAll (plain_passing 1 c.arguments)).reserve.emit
      (Special.ne_jump_of_signature? hsig)).trans (.keep rfl rfl rfl rfl rfl rfl rfl)
  | declareGlobals | enterMain | finish | defineFunction | declareLocals | endFunction | breakLoop
  | giveBack | testIf | closeIf | elseBranch | markLoop | testLoop | closeLoop | leaveLoop =>
    cases he

end

theorem RunsBy.quiet (h : Runs es c c') (hes : ∀ e ∈ es, e.isQuiet = true) : Quiet c c' := by
  induction h with
  | nil => exact .refl _
  | cons h _ ih =>
    exact (h.quiet (hes _ (by simp))).trans (ih fun e he => hes e (by simp [he]))

end Compiler

end Symphony
