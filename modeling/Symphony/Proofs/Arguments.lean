import Symphony.Proofs.Binding
import Symphony.Proofs.Targets

/-!
# Arguments of calls

The operands of the arguments of a call are pushed one after the other. They are read off the stack
from the last to the first, each put in front of those read before, and passed from the first to the
last. The machine puts each in front of those that were passed before, and reverses them when it
enters a function, whose parameters have been declared from the last to the first. In the end the
order is that of the source.

**Theorem (`Compiled.arguments_passed`).** The operands of the arguments of a call are passed in the
order of the source, right before the quad that enters the function. In every run they are the
operands that this quad finds, and each is bound to the parameter at its place.

This needs that the arguments are read when nothing else has been read or noted (`Event.Sequenced`),
and that each has left its operand: no call without a result may stand for a value in them.
-/

namespace Symphony

variable {name w written : String} {es : List Event} {c c' : Compiler} {k : Nat} {os : List Operand}
  {F : Function} {e : Event} {fs : List Field}

/-! ## Where expressions begin -/

namespace Event

/-- The number of arguments that have been read for the call that ends next. -/
def waiting (n : Nat) : Event → Nat
  | .argument => n + 1
  | .endCall _ | .endSpecial _ => 0
  | _ => n

/-- No operator stays noted, and no argument waits for its call. -/
structure AtRest (es : List Event) : Prop where
  noted : es.foldl note [] = []
  waiting : es.foldl waiting 0 = 0

/-- The first events of expressions. -/
def beginsOperand : Event → Bool
  | .constant .. | .useVariable _ | .beginCall _ | .beginSpecial _ => true
  | _ => false

/-- Expressions begin where no operator is noted and no argument waits. -/
structure Sequenced (es : List Event) : Prop where
  atRest : AtRest es
  begins : ∀ xs e ys, es = xs ++ e :: ys → e.beginsOperand = true → AtRest xs

variable {xs ys : List Event}

theorem atRest_nil : AtRest [] :=
  ⟨rfl, rfl⟩

theorem AtRest.append (hx : AtRest xs) (hy : AtRest ys) : AtRest (xs ++ ys) where
  noted := by rw [List.foldl_append, hx.noted, hy.noted]
  waiting := by rw [List.foldl_append, hx.waiting, hy.waiting]

theorem AtRest.sequenced (h : AtRest es) (hes : ∀ e ∈ es, e.beginsOperand = false) :
    Sequenced es where
  atRest := h
  begins xs e ys hsplit he := by
    rw [hes e (by simp [hsplit])] at he
    cases he

/-- One event has nothing before it. -/
theorem AtRest.sequenced_singleton (h : AtRest [e]) : Sequenced [e] where
  atRest := h
  begins xs e' ys hsplit _ := by
    cases xs with
    | nil => exact atRest_nil
    | cons x xs => simp at hsplit

theorem Sequenced.append (hx : Sequenced xs) (hy : Sequenced ys) : Sequenced (xs ++ ys) where
  atRest := hx.atRest.append hy.atRest
  begins zs e ws hsplit he := by
    rcases split_append hsplit with ⟨vs, rfl, -⟩ | ⟨vs, rfl, rfl⟩
    · exact hx.begins zs e vs rfl he
    · exact hx.atRest.append (hy.begins vs e ws rfl he)

theorem sequenced_nil : Sequenced [] :=
  atRest_nil.sequenced (List.forall_mem_nil _)

/-- Events that neither note an operator nor read an argument. -/
def isSimple (e : Event) : Bool :=
  e.isPlain && e != .argument && !e.isCall

theorem sequenced_singleton (he : e.isSimple = true) : Sequenced [e] := by
  apply AtRest.sequenced_singleton
  cases e <;> first | exact ⟨rfl, rfl⟩ | cases he

theorem Sequenced.snoc (h : Sequenced xs) (he : e.isSimple = true) : Sequenced (xs ++ [e]) :=
  h.append (sequenced_singleton he)

theorem Sequenced.cons {e : Event} (h : Sequenced xs) (he : e.isSimple = true) :
    Sequenced (e :: xs) :=
  (sequenced_singleton he).append h

theorem Sequenced.call {first last : Event} (h : Sequenced xs) (n : Nat) (hfirst : AtRest [first])
    (hlast : ∀ n, last.waiting n = 0) (hplain : last.isPlain = true)
    (hend : last.beginsOperand = false) :
    Sequenced (first :: (xs ++ List.replicate n .argument) ++ [last]) := by
  have hread : Sequenced (List.replicate n .argument ++ [last]) := by
    refine AtRest.sequenced ⟨?_, ?_⟩ fun e he => ?_
    · refine foldl_note (fun e he => ?_) []
      rcases List.mem_append.1 he with he | he
      · rw [List.eq_of_mem_replicate he]
        rfl
      · rwa [List.mem_singleton.1 he]
    · rw [List.foldl_append]
      exact hlast _
    · rcases List.mem_append.1 he with he | he
      · rw [List.eq_of_mem_replicate he]
        rfl
      · rwa [List.mem_singleton.1 he]
  have := (hfirst.sequenced_singleton.append h).append hread
  simpa using this

/-- A chain notes its operators and folds them. -/
theorem sequenced_operators (l : Links) (o : BinOp) : Sequenced (l.operators ++ [.fold o]) := by
  have hwaiting : ∀ es : List Event, (∀ e ∈ es, ∃ o, e = .chain o) →
      es.foldl Event.waiting 0 = 0 := by
    intro es hes
    induction es with
    | nil => rfl
    | cons e es ih =>
      obtain ⟨o, rfl⟩ := hes e List.mem_cons_self
      exact ih fun e he => hes e (List.mem_cons_of_mem _ he)
  refine AtRest.sequenced ⟨?_, ?_⟩ fun e he => ?_
  · rw [List.foldl_append]
    rfl
  · rw [List.foldl_append, hwaiting _ fun e he => eq_chain_of_mem l he]
    rfl
  · rcases List.mem_append.1 he with he | he
    · obtain ⟨o, rfl⟩ := eq_chain_of_mem l he
      rfl
    · rw [List.mem_singleton.1 he]
      rfl

theorem begins_append (h : ∃ x rest, xs = x :: rest ∧ x.beginsOperand = true) :
    ∃ x rest, xs ++ ys = x :: rest ∧ x.beginsOperand = true := by
  obtain ⟨x, rest, rfl, hx⟩ := h
  exact ⟨x, rest ++ ys, rfl, hx⟩

end Event

open Event

theorem Expr.sequenced (e : Expr) : Sequenced e.events :=
  e.composed
    { nil := sequenced_nil
      append := .append
      single := fun e he => sequenced_singleton (by cases e <;> first | rfl | cases he)
      sign := fun _ => sequenced_singleton rfl
      update := fun _ _ h => h.snoc rfl
      chain := sequenced_operators
      call := fun _ n _ h => h.call n ⟨rfl, rfl⟩ (fun _ => rfl) rfl rfl
      special := fun _ n _ h => h.call n ⟨rfl, rfl⟩ (fun _ => rfl) rfl rfl }

theorem sequenced_sizesOf (gs : List Group) : Sequenced (sizesOf gs) := by
  have hsizes : ∀ es : List Event, (∀ e ∈ es, Position.IsSize e) → Sequenced es := by
    intro es hes
    induction es with
    | nil => exact sequenced_nil
    | cons e es ih =>
      refine (ih fun e he => hes e (List.mem_cons_of_mem _ he)).cons ?_
      rcases hes e List.mem_cons_self with rfl | ⟨t, v, rfl⟩ <;> rfl
  refine hsizes _ fun e he => ?_
  obtain ⟨g, -, he⟩ := List.mem_flatMap.1 he
  exact Compiler.mem_sizes he

theorem composes_sequenced : Stmt.Composes Sequenced where
  nil := sequenced_nil
  append := .append
  expr := Expr.sequenced
  single e he := sequenced_singleton (by cases e <;> first | rfl | cases he)
  loop condition _ h := by
    have hend : Sequenced [.closeLoop, .leaveLoop] := (sequenced_singleton rfl).cons rfl
    exact (condition.sequenced.append ((h.append hend).cons rfl)).cons rfl

theorem sequenced_outer (e : Event) (he : e.isInner = false) : Sequenced [e] :=
  sequenced_singleton (by cases e <;> first | rfl | cases he)

theorem Tree.sequenced (p : Tree) : Sequenced p.events :=
  p.composed composes_sequenced sequenced_sizesOf sequenced_outer

mutual

theorem Expr.begins : ∀ e : Expr, ∃ x xs, e.events = x :: xs ∧ x.beginsOperand = true
  | .literal .. | .call .. | .special .. => ⟨_, _, rfl, rfl⟩
  | .reference t => t.begins
  | .apply _ e => begins_append e.begins
  | .update _ t => begins_append t.begins
  | .chain first .. => begins_append (begins_append first.begins)
  | .power base _ => begins_append (begins_append base.begins)

theorem Target.begins : ∀ t : Target, ∃ x xs, t.events = x :: xs ∧ x.beginsOperand = true
  | .variable _ => ⟨_, _, rfl, rfl⟩
  | .element _ index => begins_append index.begins

end

/-! ## Operands of arguments -/

def Args.exprs : Args → List Expr
  | nil => []
  | cons e rest => e :: rest.exprs

theorem Args.operands_eq (a : Args) : a.operands = a.exprs.flatMap Expr.events := by
  cases a with
  | nil => rfl
  | cons e rest => rw [Args.operands, rest.operands_eq, exprs, List.flatMap_cons]

theorem Args.length_exprs (a : Args) : a.exprs.length = a.length := by
  cases a with
  | nil => rfl
  | cons e rest => rw [exprs, List.length_cons, rest.length_exprs, Args.length]

theorem Args.voids_eq_zero {void : String → Bool} :
    ∀ {a : Args}, a.voids void = 0 → ∀ e ∈ a.exprs, e.voids void = 0
  | .nil, _ => List.forall_mem_nil _
  | .cons e rest, h => by
    rw [Args.voids, Nat.add_eq_zero_iff] at h
    exact List.forall_mem_cons.2 ⟨h.1, voids_eq_zero h.2⟩

namespace Compiler

theorem Acts.length_arguments (ha : Acts e c c') :
    c'.arguments.length = e.waiting c.arguments.length := by
  cases ha with
  | declareGlobals hv => exact congrArg (·.2.2.length) hv.held
  | declareLocals hp hv => exact congrArg (·.2.2.length) (hv.held.trans hp.held)
  | power _ hop =>
    cases hop
    rfl
  | fold _ hfold => exact (congrArg (·.arguments.length) hfold.rest_eq :)
  | giveBack | closeLoop =>
    rw [completeAll_eq]
    rfl
  | _ => rfl

theorem RunsBy.length_arguments (hr : Runs es c c') :
    c'.arguments.length = es.foldl Event.waiting c.arguments.length := by
  induction hr with
  | nil => rfl
  | cons ha _ ih => rw [ih, ha.length_arguments, List.foldl_cons]

/-- Nothing is noted and no argument waits where the events say so. -/
theorem RunsBy.rests (hr : Runs es {} c) (hes : AtRest es) : c.Rests where
  chained := hr.chained.trans hes.noted
  arguments := List.eq_nil_of_length_eq_zero (hr.length_arguments.trans hes.waiting)

end Compiler

namespace Compiled

open Compiler

variable {line : Nat} {source : String}

/-- What the compiler does between two steps of an accepted source. -/
theorem runs_between (h : (ofSource line source).rejection = none) {before steps after : List Step}
    (hsteps : (Trace.ofSource line source).steps = before ++ steps ++ after) (last : Nat) :
    Runs (steps.map Step.event) (ofSteps .accepted last before {}).state
      (ofSteps .accepted last (before ++ steps) {}).state := by
  have hbefore := runs_before h (hsteps.trans (List.append_assoc ..)) last
  have hboth := runs_before h hsteps last
  rw [List.map_append] at hboth
  obtain ⟨d, hd, hrest⟩ := runs_append.1 hboth
  obtain rfl := hd.unique hbefore
  exact hrest

/-- Wherever an expression stands in an accepted source, nothing is noted and no argument waits when
it begins, and it leaves one operand, of its type. Whenever a chain in it is folded, the operators
of this chain are noted. -/
theorem expression_in_source (h : (ofSource line source).rejection = none)
    {before steps after : List Step}
    (hsteps : (Trace.ofSource line source).steps = before ++ steps ++ after) {e : Expr}
    (hevents : steps.map Step.event = e.events)
    (hvoids : e.voids (ofSteps .accepted 1 before {}).state.isVoid = 0) :
    let c := (ofSteps .accepted 1 before {}).state
    let c' := (ofSteps .accepted 1 (before ++ steps) {}).state
    (c.Rests ∧ c'.Rests ∧ c'.called = c.called ∧ c'.jumps = c.jumps) ∧
      (∃ k place, e.kind? c.names = some k ∧ c'.operands = ⟨k, place⟩ :: c.operands) ∧
      ∀ xs s ys o, steps = xs ++ s :: ys → s.event = .fold o →
        ∃ ops, ⟨xs.map Step.event, o, ops⟩ ∈ e.foldings ∧
          (ofSteps .accepted 1 (before ++ xs) {}).state.chained = ops.map BinOp.symbol := by
  intro c c'
  obtain ⟨p, hp, -⟩ := exists_runs h
  obtain ⟨x, rest, hx, hbegins⟩ := e.begins
  -- The expression begins with an event before which the events of the tree are at rest.
  have hsplit : p.events = before.map Step.event ++ x :: (rest ++ after.map Step.event) := by
    rw [hp, Trace.events, hsteps, List.map_append, List.map_append, hevents, hx]
    simp
  have hbefore := runs_before h (hsteps.trans (List.append_assoc ..)) 1
  have hrests : c.Rests := hbefore.rests (p.sequenced.begins _ x _ hsplit hbegins)
  have hruns : Runs e.events c c' := hevents ▸ runs_between h hsteps 1
  obtain ⟨⟨k, place⟩, hkind, hgains⟩ := e.gains hruns hrests hvoids
  refine ⟨⟨hrests, hgains.rests, hruns.called_eq e.nested, hgains.quiet.jumps⟩,
    ⟨k, place, hkind, hgains.operands⟩, ?_⟩
  rintro xs s ys o rfl hs
  have hfold : e.events = xs.map Step.event ++ .fold o :: ys.map Step.event := by
    rw [← hevents, List.map_append, List.map_cons, hs]
  have hxs : (Trace.ofSource line source).steps = before ++ xs ++ (s :: ys ++ after) := by
    simp [hsteps]
  exact e.chained_of_fold hfold (runs_between h hxs 1) hrests.chained

end Compiled

namespace Compiler

/-- Arguments are read from the last to the first. -/
theorem RunsBy.read_arguments {n : Nat} (hr : Runs (List.replicate n .argument) c c') :
    c'.arguments = (c.operands.take n).reverse ++ c.arguments := by
  induction n generalizing c with
  | zero =>
    obtain rfl := runs_nil.1 hr
    rfl
  | succ n ih =>
    obtain ⟨c₁, harg, hrest⟩ := runs_cons.1 hr
    rw [ih hrest]
    cases harg with
    | argument hx => simp [hx]

/-- Each expression adds its operand. -/
theorem RunsBy.gains_each {es : List Expr} (hr : Runs (es.flatMap Expr.events) c c') (hc : c.Rests)
    (hes : ∀ e ∈ es, e.voids c.isVoid = 0) :
    ∃ os : List Operand, os.length = es.length ∧ Gains os c c' ∧
      ∀ i d, Runs ((es.take i).flatMap Expr.events) c d →
        d.operands = (os.take i).reverse ++ c.operands := by
  induction es generalizing c with
  | nil =>
    obtain rfl := runs_nil.1 hr
    refine ⟨[], rfl, ⟨hc, rfl, .refl _⟩, fun i d hd => ?_⟩
    rw [List.take_nil] at hd ⊢
    rw [runs_nil.1 hd]
    rfl
  | cons e es ih =>
    obtain ⟨he, hes⟩ := List.forall_mem_cons.1 hes
    obtain ⟨c₁, hfirst, hrest⟩ := runs_append.1 hr
    obtain ⟨x, -, hgains⟩ := e.gains hfirst hc he
    obtain ⟨os, hlength, hothers, heach⟩ := ih hrest hgains.rests (by rwa [hgains.quiet.isVoid])
    refine ⟨x :: os, by simp [hlength], hgains.trans hothers, fun i d hd => ?_⟩
    cases i with
    | zero => rw [runs_nil.1 hd]; rfl
    | succ i =>
      obtain ⟨d₁, hd₁, hd⟩ := runs_append.1 hd
      obtain rfl := hd₁.unique hfirst
      rw [heach i d hd, hgains.operands]
      simp

/-! ## Calls -/

theorem length_passing (n : Nat) (xs : List Operand) : (passing n xs).length = xs.length := by
  induction xs generalizing n with
  | nil => rfl
  | cons x xs ih => rw [passing, List.length_cons, ih, List.length_cons]

theorem getElem?_passing (xs : List Operand) (n i : Nat) :
    (passing n xs)[i]? = (xs[i]?).map fun x => [.word "PARAM", x.place, .num (n + i : Nat)] := by
  induction xs generalizing n i with
  | nil => rfl
  | cons x xs ih =>
    cases i with
    | zero => rfl
    | succ i =>
      rw [passing, List.getElem?_cons_succ, ih, List.getElem?_cons_succ, Nat.add_right_comm,
        Nat.add_assoc]

/-- Operands are passed from an index on, and then a quad comes. -/
structure Passing (os : List Operand) (k : Nat) (q : Quad) (c : Compiler) : Prop where
  params : ∀ i x, os[i]? = some x →
    c.quads[k + i]? = some [.word "PARAM", x.place, .num (i + 1 : Nat)]
  taker : c.quads[k + os.length]? = some q

theorem passing_of_quads (qs : List Quad) {q : Quad}
    (h : c'.quads.toList = c.quads.toList ++ (passing 1 c.arguments ++ q :: qs)) :
    Passing c.arguments c.quads.size q c' := by
  have hsize := length_passing 1 c.arguments
  have hget : ∀ i, c'.quads[c.quads.size + i]? = (passing 1 c.arguments ++ q :: qs)[i]? := by
    intro i
    rw [← Array.getElem?_toList, h, List.getElem?_append_right (by simp)]
    simp
  refine ⟨fun i x hx => ?_, ?_⟩
  · have hi : i < (passing 1 c.arguments).length := hsize ▸ (List.getElem?_eq_some_iff.1 hx).1
    rw [hget, List.getElem?_append_left hi, getElem?_passing, hx, Option.map_some, Nat.add_comm 1]
  · rw [hget, ← hsize, List.getElem?_append_right (Nat.le_refl _), Nat.sub_self]
    rfl

theorem Passing.kept (h : Passing os k (.word w :: fs) c) (hr : TidyRuns es c c') (hw : IsFinal w) :
    Passing os k (.word w :: fs) c' :=
  ⟨fun i x hx => hr.kept (by decide) (h.params i x hx), hr.kept hw h.taker⟩

end Compiler

namespace Compiler

open Quad

variable {q : Quad} {rest : List Scope}

theorem Acts.passing_call (ha : Acts (.endCall written) c c')
    (hcalled : c.called = some name :: rest) :
    ∃ f, c.function? (some name) = some f ∧ c.arguments.length = f.parameterKinds.length ∧
      Passing c.arguments c.quads.size [.word "GOSUB", .word name] c' := by
  have hname : ∀ {s rest'}, c.called = s :: rest' → s = some name := fun h =>
    (List.cons.inj (h.symm.trans hcalled)).1
  cases ha with
  | callVoid hc hf hlen =>
    obtain rfl := hname hc
    exact ⟨_, hf, hlen, passing_of_quads [] (by simp [enterFunction, emitAll, emit, Scope.text])⟩
  | @callKnown _ _ _ _ _ _ t place hc hf hlen =>
    obtain rfl := hname hc
    refine ⟨_, hf, hlen, passing_of_quads
      [[.word "=", place, .num (c.next (variableSector (c.scope == none)) t)]] ?_⟩
    simp [enterFunction, emitAll, emit, push, reserve, Scope.text]
  | callSelf hc hf hlen =>
    obtain rfl := hname hc
    refine ⟨_, hf, hlen, passing_of_quads [[.word "="]] ?_⟩
    simp [enterFunction, emitAll, emit, push, reserve, Scope.text]

theorem Acts.passing_special (ha : Acts (.endSpecial written) c c')
    (hcalled : c.called = some name :: rest) :
    ∃ s fs, Special.signature? name = some s ∧ c.arguments.length = s.parameters.length ∧
      fs.length = s.result.toList.length ∧ Passing c.arguments c.quads.size
        (.word name :: fs) c' := by
  have hname : ∀ {name' rest'}, c.called = some name' :: rest' → name' = name := fun h =>
    Option.some.inj (List.cons.inj (h.symm.trans hcalled)).1
  cases ha with
  | specialVoid hc hs hlen _ hres =>
    obtain rfl := hname hc
    exact ⟨_, [], hs, hlen, by simp [hres], passing_of_quads [] (by simp [emitAll, emit])⟩
  | @specialValue _ _ _ _ _ t hc hs hlen _ hres =>
    obtain rfl := hname hc
    exact ⟨_, [.num (c.next .temporals t)], hs, hlen, by simp [hres],
      passing_of_quads [] (by simp [emitAll, emit, push, reserve])⟩

/-- What has been handed over at an index does not depend on later events. -/
theorem RunsBy.passed_eq (hr : TidyRuns es c c') (h : c.IsFed) (hk : k ≤ c.quads.size) :
    passed c'.quads k = passed c.quads k := by
  refine passed_congr fun i hi => ?_
  have hq := Array.getElem?_eq_getElem (Nat.lt_of_lt_of_le hi hk)
  obtain ⟨w, fs, hword⟩ := (h.quads i _ hq).1.exists_word
  rw [hword] at hq
  by_cases hw : IsFinal w
  · rw [hr.kept hw hq, hq]
  · have hparam : w ≠ "PARAM" := by
      rintro rfl
      exact hw (by decide)
    obtain ⟨gs, hgs⟩ := hr.grown hq
    rw [hgs, hq, Option.bind_some, Option.bind_some, passes?_eq_none hparam, List.cons_append,
      passes?_eq_none hparam]

namespace Passing

/-- The operands that have been handed over while operands are passed. -/
theorem passed_eq (h : Passing os k q c) (hclear : passed c.quads k = []) {i : Nat}
    (hi : i ≤ os.length) : passed c.quads (k + i) = ((os.take i).map Operand.place).reverse := by
  induction i with
  | zero => exact hclear
  | succ i ih =>
    have hx := List.getElem?_eq_getElem hi
    rw [← Nat.add_assoc, passed, h.params i _ hx, ih (Nat.le_of_succ_le hi), List.take_add_one, hx,
      List.map_append, List.reverse_append]
    rfl

theorem passed_after (h : Passing os k (.word w :: fs) c) (hw : w ≠ "PARAM") :
    passed c.quads (k + os.length + 1) = [] := by
  rw [passed, h.taker, Option.bind_some, passes?_eq_none hw]

end Passing

end Compiler

namespace Compiler

/-- The arguments of a call are read, first one first. -/
theorem RunsBy.call_arguments {first last : Event} {args : Args}
    (hfirst : ∀ {d d'}, Acts first d d' → d' = { d with called := some name :: d.called })
    (hr : Runs (first :: (args.operands ++ List.replicate args.length .argument) ++ [last]) c c')
    (hc : c.Rests) (hvoids : args.voids c.isVoid = 0) :
    ∃ os c₃, os.length = args.exprs.length ∧
      (∀ i d, Runs (first :: (args.exprs.take i).flatMap Expr.events) c d →
        d.operands = (os.take i).reverse ++ c.operands) ∧
      Runs (first :: (args.operands ++ List.replicate args.length .argument)) c c₃ ∧
        c₃.arguments = os ∧
      c₃.called = some name :: c.called ∧ Acts last c₃ c' := by
  obtain ⟨c₃, hr, hlast⟩ := runs_append.1 hr
  obtain ⟨c₁, hbegin, hargs⟩ := runs_cons.1 hr
  obtain ⟨c₂, hoperands, hread⟩ := runs_append.1 hargs
  have hc₁ := hfirst hbegin
  have hrests : c₁.Rests := by
    rw [hc₁]
    exact ⟨hc.chained, hc.arguments⟩
  obtain ⟨os, hlength, hgains, heach⟩ := RunsBy.gains_each (args.operands_eq ▸ hoperands) hrests
    fun e he => by
    rw [hc₁]
    exact args.voids_eq_zero hvoids e he
  rw [Args.length_exprs] at hlength
  obtain ⟨-, -, hcalled, -⟩ := hgains.arguments hc₁ hlength hoperands hread
  refine ⟨os, c₃, by rw [hlength, Args.length_exprs], fun i d hd => ?_, hr, ?_, hcalled,
    runs_singleton.1 hlast⟩
  · obtain ⟨d₁, hd₁, hd⟩ := runs_cons.1 hd
    obtain rfl := (hfirst hd₁).trans hc₁.symm
    rw [heach i d hd, hc₁]
  · rw [hread.read_arguments, hgains.operands, ← hlength, List.take_left' os.length_reverse,
      List.reverse_reverse, hgains.rests.arguments, List.append_nil]

namespace Phase

open Position

variable {p : Tree} {xs ys : List FunctionTree} {f : FunctionTree} {c₁ c₂ c₃ : Compiler}

theorem follows_after (p : Tree) (f : FunctionTree) (ys : List FunctionTree) :
    Follows .body (f.body.events ++ .endFunction :: (ys.flatMap FunctionTree.events ++ p.closing))
      .done := by
  refine (follows_block f.body (.inl rfl)).append
    (.cons .close ((FunctionTree.follows_all ys).append (.cons .enter ?_)))
  exact (follows_block p.main (.inr rfl)).append (.cons .finish (.nil _))

/-- The signature of a function has the types of its parameters, in the order of the source. -/
theorem parameterKinds (h : Phase p xs f ys c₁ c₂ c₃ c) (hF : c.function? (some f.name) = some F) :
    F.parameterKinds = f.params.map fun q => Kind.value q.1 := by
  obtain ⟨vs, -, htypes, -, hopen, hkinds, -⟩ := h.current_head
  obtain ⟨F₂, hF₂⟩ := Option.isSome_iff_exists.1 hopen.known
  have hcurrent : c₂.current = F₂ := by
    rw [current, hF₂]
    rfl
  rw [h.scope_eq] at hF₂
  have hsignature : c₂.HasSignature .body f.name (f.params.map fun q => Kind.value q.1) :=
    ⟨by simp, F₂, hF₂, by rw [← hcurrent, hkinds, htypes]⟩
  have hat : c₂.IsAt .body := by simp [IsAt, InFunction, h.scope_eq]
  obtain ⟨-, F', hF', hkinds'⟩ :=
    RunsBy.hasSignature (runs_append.2 ⟨c₃, h.body, h.after⟩) (follows_after p f ys) hat hsignature
  obtain rfl := Option.some.inj (hF'.symm.trans hF)
  exact hkinds'

end Phase

end Compiler

namespace Compiled

/-- The operands that the compiler holds after steps. -/
def operandsAfter (steps : List Step) : List Operand :=
  (ofSteps .accepted 1 steps {}).state.operands

/-- The operands of expressions are passed in order, from an index of the code on. Each is what its
expression has added to the operands of the compiler. In every run they are handed over one after
the other, to the quad that comes after them, which uses them up. -/
structure Passes (line : Nat) (source : String) (before call : List Step) (es : List Expr)
    (os : List Operand) (k : Nat) : Prop where
  length : os.length = es.length
  operands : ∀ i first xs ys, call = first :: xs ++ ys →
    xs.map Step.event = (es.take i).flatMap Expr.events →
    operandsAfter (before ++ first :: xs) = (os.take i).reverse ++ operandsAfter before
  params : ∀ i x, os[i]? = some x →
    (ofSource line source).state.quads[k + i]? = some [.word "PARAM", x.place, .num (i + 1 : Nat)]
  handed : ∀ randoms inputs n i m, i ≤ os.length →
    (ofSource line source).play randoms inputs n = (.unfinished (k + i : Nat), m) →
    m.parameters = ((os.take i).map fun x => x.place.text).reverse
  taken : ∀ randoms inputs n m j m',
    (ofSource line source).play randoms inputs n = (.unfinished (k + os.length : Nat), m) →
    (ofSource line source).program.step (k + os.length : Nat) m = .next j m' → m'.parameters = []
  after : ∀ randoms inputs n m,
    (ofSource line source).play randoms inputs n = (.unfinished (k + os.length + 1 : Nat), m) →
      m.parameters = []

/-- The parameters of a function of a source, in order, with their types. -/
def HasTypedParameters (line : Nat) (source name : String) (vs : List Variable) : Prop :=
  ∃ p : Tree, p.events = (Trace.ofSource line source).events ∧ ∃ f ∈ p.functions, f.name = name ∧
    vs.map (fun v => (v.kind, v.name)) = f.params.map (fun q => (Kind.value q.1, q.2)) ∧
    ∀ v ∈ vs, Declares line source name v

/-- The quad at an index enters a function, and binds the parameters to operands, each to the one at
its place. -/
def BindsTo (line : Nat) (source name : String) (os : List Operand) (k : Nat) : Prop :=
  (ofSource line source).state.quads[k]? = some [.word "GOSUB", .word name] ∧
  ∃ F vs, (ofSource line source).program.function? name = some F ∧
    HasTypedParameters line source name vs ∧ vs.length = os.length ∧ ∀ randoms inputs n m j m',
      (ofSource line source).play randoms inputs n = (.unfinished k, m) →
      (ofSource line source).program.step k m = .next j m' → j = F.start ∧
        ∃ m₁, (Routine.bind (Routine.pairs vs (os.map Operand.place))).runFrom
            { m with records := m.memory.locals :: m.records } = (.ok (), m₁) ∧
          m' = { m₁ with parameters := [], returns := k :: m₁.returns }

open Compiler

variable {line : Nat} {source : String}

/-- Operands that stand in the code are handed over in every run. -/
theorem passes_of_passing (h : (ofSource line source).rejection = none) {before call : List Step}
    {es : List Expr} (hlength : os.length = es.length)
    (hoperands : ∀ i first xs ys, call = first :: xs ++ ys →
      xs.map Step.event = (es.take i).flatMap Expr.events →
      operandsAfter (before ++ first :: xs) = (os.take i).reverse ++ operandsAfter before)
    (hpassing : Passing os k (.word w :: fs) (ofSource line source).state) (hw : w ≠ "PARAM")
    (hclear : Quad.passed (ofSource line source).state.quads k = []) :
    Passes line source before call es os k := by
  obtain ⟨p, hp, hruns⟩ := exists_runs h
  have hfed : (ofSource line source).state.IsFed := (p.laidOut hruns).1.fed isFed_empty
  obtain ⟨regions, main, hr, -⟩ := exists_routed h
  have hplayed : ∀ {randoms inputs n j m}, (ofSource line source).play randoms inputs n =
      (.unfinished (j : Nat), m) → ∃ fs, Stands regions main (ofSource line source).state fs j m ∧
        m.parameters = (Quad.passed (ofSource line source).state.quads j).map Field.text := by
    intro randoms inputs n j m hplay
    obtain ⟨fs, j', hj, hstands, hm⟩ :=
      hfed.handed_steps hr (.start rfl rfl) rfl (Program.run_eq_unfinished.1 hplay)
    obtain rfl := Int.ofNat.inj hj
    exact ⟨fs, hstands, hm⟩
  refine ⟨hlength, hoperands, hpassing.params, ?_, ?_, ?_⟩
  · intro randoms inputs n i m hi hplay
    obtain ⟨-, -, hm⟩ := hplayed hplay
    rw [hm, hpassing.passed_eq hclear hi, List.map_reverse, List.map_map]
    rfl
  · intro randoms inputs n m j m' hplay hstep
    obtain ⟨fs, hstands, hm⟩ := hplayed hplay
    rw [hfed.handed_next hr hstands hpassing.taker hm hstep, Quad.passes?_eq_none hw]
    rfl
  · intro randoms inputs n m hplay
    obtain ⟨-, -, hm⟩ := hplayed hplay
    rw [hm, hpassing.passed_after hw]
    rfl

/-- The parameters of a function that is in the table. -/
theorem exists_parameters (h : (ofSource line source).rejection = none)
    (hF : (ofSource line source).program.function? name = some F) :
    ∃ vs, HasTypedParameters line source name vs ∧ F.parameterKinds = vs.map Variable.kind ∧
      F.parameterAddresses = vs.map Variable.address := by
  obtain ⟨tree, htree, hruns⟩ := exists_runs h
  obtain ⟨regions, main, hr, hnames⟩ := exists_routed h
  obtain ⟨r, hmem, rfl, -⟩ := hr.region_of_function hF
  obtain ⟨ys, f, zs, c₁, c₂, c₃, hphase, hname⟩ :=
    exists_phase_of_region (tree.laidOut hruns).1 (by rw [hnames, htree]) hmem
  obtain ⟨G, vs, hG, hvnames, -, hvs, hkinds, haddresses⟩ := hphase.parameters
  have htypes := hphase.parameterKinds hG
  rw [← hname] at hG
  obtain rfl : G = F := Option.some.inj (hG.symm.trans hF)
  refine ⟨vs, ⟨tree, htree, f, ?_, hname.symm, ?_, fun v hv =>
    hname ▸ hphase.declares htree (hvs v hv).2⟩, hkinds, haddresses⟩
  · rw [hphase.functions]
    simp
  · rw [← List.zip_map', ← List.zip_map', hvnames, ← hkinds, htypes]

/-- The function that is entered has the signature that was checked. -/
theorem binds_of_passing (h : (ofSource line source).rejection = none)
    (hF : (ofSource line source).program.function? name = some F)
    (hlength : os.length = F.parameterKinds.length)
    (hpassing : Passing os k [.word "GOSUB", .word name] (ofSource line source).state)
    (hhanded : ∀ randoms inputs n m,
      (ofSource line source).play randoms inputs n = (.unfinished (k + os.length : Nat), m) →
      m.parameters = (os.map fun x => x.place.text).reverse) :
    BindsTo line source name os (k + os.length) := by
  obtain ⟨regions, main, hr, -⟩ := exists_routed h
  obtain ⟨vs, hvs, hkinds, haddresses⟩ := exists_parameters h hF
  refine ⟨hpassing.taker, F, vs, hF, hvs, by rw [hlength, hkinds, List.length_map], ?_⟩
  intro randoms inputs n m j m' hplay hstep
  obtain ⟨G, m₁, hG, rfl, hbind, rfl⟩ :=
    Routine.bind_of_enter (Program.enter_of_step (hr.program.quad?_eq_some hpassing.taker) hstep)
  obtain rfl := Option.some.inj (hG.symm.trans hF)
  have hpairs : (G.parameterKinds.zip G.parameterAddresses).zip m.parameters.reverse =
      Routine.pairs vs (os.map Operand.place) := by
    rw [hkinds, haddresses, hhanded randoms inputs n m hplay, List.reverse_reverse, Routine.pairs,
      List.map_map]
    rfl
  rw [hpairs] at hbind
  exact ⟨rfl, m₁, hbind, rfl⟩

/-- The signature that a call is checked with is that of the function in the end. -/
theorem signature_of_call (h : (ofSource line source).rejection = none) {us vs : List Event}
    {c₃ : Compiler} (hevents : (Trace.ofSource line source).events = us ++ .endCall written :: vs)
    (hbefore : TidyRuns us {} c₃)
    (hafter : TidyRuns (.endCall written :: vs) c₃ (ofSource line source).state) {f : Function}
    (hf : c₃.function? (some name) = some f) :
    ∃ F, (ofSource line source).program.function? name = some F ∧
      F.parameterKinds = f.parameterKinds := by
  obtain ⟨p, hp, -⟩ := exists_runs h
  obtain ⟨q, hus, hvs⟩ := Position.follows_append.1 (hevents ▸ hp ▸ p.follows)
  have hat : c₃.IsAt q := hbefore.plain.isAt hus (by simp [IsAt, Position.InFunction])
  have hq : q ≠ .head := by
    rintro rfl
    cases hvs with
    | cons hm =>
      cases hm with
      | size hsize => simp [Position.IsSize] at hsize
      | inner _ hinner => simp at hinner
  obtain ⟨-, F, hF, hkinds⟩ := hafter.hasSignature hvs hat ⟨fun hhead => hq hhead.1, f, hf, rfl⟩
  exact ⟨F, hF, hkinds⟩

/-- In the state in which a call ends its arguments have been read, and nothing has been handed over
yet. -/
theorem call_end (h : (ofSource line source).rejection = none) {before call after : List Step}
    (hsteps : (Trace.ofSource line source).steps = before ++ call ++ after) {first last : Event}
    {args : Args}
    (hfirst : ∀ {d d'}, Acts first d d' → d' = { d with called := some name :: d.called })
    (hbegins : first.beginsOperand = true)
    (hcall : call.map Step.event =
      first :: (args.operands ++ List.replicate args.length .argument) ++ [last])
    (hvoids : args.voids (ofSteps .accepted 1 before {}).state.isVoid = 0) :
    let us := (before ++ call.dropLast).map Step.event
    let c := (ofSteps .accepted 1 (before ++ call.dropLast) {}).state
    ∃ c' rest, c.arguments.length = args.exprs.length ∧
      (∀ i s xs ys, call = s :: xs ++ ys →
        xs.map Step.event = (args.exprs.take i).flatMap Expr.events →
        operandsAfter (before ++ s :: xs) = (c.arguments.take i).reverse ++ operandsAfter before) ∧
      (Trace.ofSource line source).events = us ++ last :: after.map Step.event ∧ TidyRuns us {} c ∧
      c.called = some name :: rest ∧ Acts last c c' ∧
      TidyRuns (last :: after.map Step.event) c (ofSource line source).state ∧
      TidyRuns (after.map Step.event) c' (ofSource line source).state := by
  intro us c
  obtain ⟨p, hp, hruns⟩ := exists_runs h
  have htidy := (p.laidOut hruns).1
  have hread : call.dropLast.map Step.event =
      first :: (args.operands ++ List.replicate args.length .argument) := by
    rw [List.map_dropLast, hcall, List.dropLast_concat]
  have hevents : p.events = us ++ last :: after.map Step.event := by
    rw [hp, Trace.events, hsteps, List.map_append, List.map_append, hcall, ← hread]
    simp [us]
  have hbefore := runs_before h (hsteps.trans (List.append_assoc ..)) 1
  have hrests := hbefore.rests (p.sequenced.begins _ first _ (by
    rw [hevents, show us = _ from List.map_append, hread, List.append_assoc]
    rfl) hbegins)
  have hne : call ≠ [] := by
    rintro rfl
    cases hcall
  have hends : (Trace.ofSource line source).steps =
      before ++ call.dropLast ++ (call.getLast hne :: after) := by
    rw [List.append_assoc, ← List.singleton_append, ← List.append_assoc call.dropLast,
      List.dropLast_append_getLast, hsteps, List.append_assoc]
  rw [hevents] at htidy
  obtain ⟨d, hd, hend⟩ := runs_append.1 htidy
  obtain rfl := hd.plain.unique (runs_before h hends 1)
  obtain ⟨c', hlast, hafter⟩ := runs_cons.1 hend
  -- The operands of the arguments are those that the compiler has read.
  have hargs := runs_between h hends 1
  rw [hread] at hargs
  obtain ⟨os, c₃, hlength, heach, hargs', rfl, hcalled, -⟩ :=
    RunsBy.call_arguments hfirst (runs_append.2 ⟨c, hargs, runs_singleton.2 hlast.1⟩) hrests hvoids
  obtain rfl := hargs'.unique hargs
  refine ⟨c', _, hlength, fun i s xs ys hsplit hxs => ?_, ?_, hd, hcalled, hlast.1, hend, hafter⟩
  · have hs : s.event = first := by
      rw [hsplit] at hcall
      exact (List.cons.inj hcall).1
    have hsteps' : (Trace.ofSource line source).steps = before ++ (s :: xs) ++ (ys ++ after) := by
      simp [hsteps, hsplit]
    have hruns := runs_between h hsteps' 1
    rw [List.map_cons, hs, hxs] at hruns
    exact heach i _ hruns
  · rw [← hp, hevents]

/-- **Arguments are passed in the order of the source**, to user functions and to special functions,
from the quad on that comes next when they have been read. -/
theorem arguments_passed (h : (ofSource line source).rejection = none)
    {before call after : List Step}
    (hsteps : (Trace.ofSource line source).steps = before ++ call ++ after) {name : String}
    {args : Args} (hvoids : args.voids (ofSteps .accepted 1 before {}).state.isVoid = 0) :
    let k := (ofSteps .accepted 1 (before ++ call.dropLast) {}).state.quads.size
    (call.map Step.event = (Expr.call name args).events →
      ∃ os, Passes line source before call args.exprs os k ∧
        BindsTo line source name os (k + os.length)) ∧
    (call.map Step.event = (Expr.special name args).events →
      ∃ os, Passes line source before call args.exprs os k ∧
        ∃ s fs, Special.signature? name = some s ∧
          os.length = s.parameters.length ∧ fs.length = s.result.toList.length ∧
          (ofSource line source).state.quads[k + os.length]? = some (.word name :: fs)) := by
  refine ⟨fun hcall => ?_, fun hcall => ?_⟩
  · -- User functions: the entered function takes what has been handed over.
    have hfirst : ∀ {d d'}, Acts (.beginCall name) d d' →
        d' = { d with called := some name :: d.called } := by
      intro d d' ha
      cases ha
      rfl
    obtain ⟨c', rest, hlength, hoperands, hevents, hbefore, hcalled, hlast, hend, hafter⟩ :=
      call_end h hsteps hfirst rfl hcall hvoids
    obtain ⟨f, hf, hcount, hpassing⟩ := hlast.passing_call hcalled
    have hfed := hbefore.fed isFed_empty
    have hpassing := hpassing.kept hafter (by decide)
    have hclear := (hend.passed_eq hfed (Nat.le_refl _)).trans hfed.last
    have hpasses := passes_of_passing h hlength hoperands hpassing (by decide) hclear
    obtain ⟨F, hF, hkinds⟩ := signature_of_call h hevents hbefore hend hf
    have hcount := hcount.trans (congrArg _ hkinds.symm)
    refine ⟨_, hpasses, binds_of_passing h hF hcount hpassing ?_⟩
    intro randoms inputs n m hplay
    rw [hpasses.handed randoms inputs n _ m (Nat.le_refl _) hplay, List.take_length]
  · -- Special functions.
    have hfirst : ∀ {d d'}, Acts (.beginSpecial name) d d' →
        d' = { d with called := some name :: d.called } := by
      intro d d' ha
      cases ha
      rfl
    obtain ⟨c', rest, hlength, hoperands, hevents, hbefore, hcalled, hlast, hend, hafter⟩ :=
      call_end h hsteps hfirst rfl hcall hvoids
    obtain ⟨s, fs, hs, hcount, hfields, hpassing⟩ := hlast.passing_special hcalled
    have hfed := hbefore.fed isFed_empty
    have hfinal : IsFinal name := by
      obtain ⟨hgoto, hgotof, -⟩ := Special.ne_jump_of_signature? hs
      refine ⟨hgoto, hgotof, ?_⟩
      rintro rfl
      simp [Special.signature?] at hs
    have hpassing := hpassing.kept hafter hfinal
    have hclear := (hend.passed_eq hfed (Nat.le_refl _)).trans hfed.last
    have hpasses := passes_of_passing h hlength hoperands hpassing (Special.ne_param hs) hclear
    exact ⟨_, hpasses, s, fs, hs, hcount, hfields, hpassing.taker⟩

/-- A call among the arguments of a call, with commas after the last arguments. -/
theorem arguments_passed_nested :
    let source := "program p; fun int f(int a, int b) { return b; } println(f(1, f(2, 3,),));"
    let inner := Expr.call "f" (.cons (.literal .int (.int 2))
      (.cons (.literal .int (.int 3)) .nil))
    let args := Args.cons (.literal .int (.int 1)) (.cons inner .nil)
    let steps := (Trace.ofSource 1 source).steps
    (ofSource 1 source).rejection = none ∧
      args.voids (ofSteps .accepted 1 (steps.take 8) {}).state.isVoid = 0 ∧
      ∃ os, Passes 1 source (steps.take 8) ((steps.drop 8).take 11) args.exprs os 6 ∧
        BindsTo 1 source "f" os (6 + os.length) := by
  intro source inner args steps
  have haccepted : (ofSource 1 source).rejection = none := by decide +kernel
  have hsteps : steps = steps.take 8 ++ (steps.drop 8).take 11 ++ steps.drop 19 := by
    decide +kernel
  have hcall : ((steps.drop 8).take 11).map Step.event = (Expr.call "f" args).events := by
    decide +kernel
  have hvoids : args.voids (ofSteps .accepted 1 (steps.take 8) {}).state.isVoid = 0 := by
    decide +kernel
  have hk : (ofSteps .accepted 1 (steps.take 8 ++ ((steps.drop 8).take 11).dropLast)
      {}).state.quads.size = 6 := by
    decide +kernel
  have hpassed := (arguments_passed haccepted hsteps hvoids).1 hcall
  rw [hk] at hpassed
  exact ⟨haccepted, hvoids, hpassed⟩

end Compiled

end Symphony
