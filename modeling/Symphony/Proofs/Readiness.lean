import Symphony.Proofs.Kinds
import Symphony.Proofs.Nesting
import Symphony.Proofs.Order

/-!
# What an event finds

When an event comes, the compiler has taken those before it. They have put on its stacks what the
event takes from them: the call that ends, the jumps that are completed, the first quad.

**Theorem (`Compiler.ready`).** Whenever the compiler has taken the first events of a tree, it is
ready for the next one (`Compiler.Ready`).

Two things hold only under a condition. A jump is there for every event that completes one if no
branch follows a last branch (`Tree.covered`). And every operand has a type with a name if no unary
operator has been applied, since only the code of its result type is kept.
-/

namespace Symphony

variable {n : Int} {due es xs ys : List Event} {e : Event} {p : Position}

/-! ## Jumps that events complete -/

namespace Event

/-- How many jumps an event takes. -/
def pops : Event → Nat
  | .closeIf | .elseBranch => 1
  | .closeLoop => 2
  | _ => 0

/-- With this many jumps at the beginning, there are always as many as the next event takes. -/
def Covered : Int → List Event → Prop
  | _, [] => True
  | n, e :: es => e.pops ≤ n ∧ Covered (n + e.balance) es

theorem covered_append : Covered n (xs ++ ys) ↔ Covered n xs ∧ Covered (n + balanceOf xs) ys := by
  induction xs generalizing n with
  | nil => simp [Covered]
  | cons e xs ih => simp [Covered, ih, and_assoc, Int.add_assoc]

theorem covered_of_isQuiet (hn : 0 ≤ n) (h : ∀ e ∈ es, e.isQuiet = true) : Covered n es := by
  induction es with
  | nil => trivial
  | cons e es ih =>
    obtain ⟨he, hes⟩ := List.forall_mem_cons.1 h
    refine ⟨?_, ?_⟩
    · cases e <;> first | exact hn | cases he
    · rw [balance_of_isQuiet he, Int.add_zero]
      exact ih hes

/-- An event that is neither the beginning nor the end of a jump. -/
theorem covered_cons_of (hpops : e.pops = 0) (hbalance : e.balance = 0) (hn : 0 ≤ n)
    (h : Covered n es) : Covered n (e :: es) := by
  refine ⟨by rw [hpops]; exact hn, ?_⟩
  rwa [hbalance, Int.add_zero]

/-- A loop whose condition has begun is not left before it is tested. -/
def marks (b : Bool) : Event → Bool
  | .markLoop => true
  | .testLoop => false
  | _ => b

/-- No jump is completed between the beginning and the test of a condition. -/
def Tested : Bool → List Event → Prop
  | _, [] => True
  | b, e :: es => (e = .closeIf → b = false) ∧ Tested (e.marks b) es

end Event

open Event

theorem Extra.eq_none {x : Extra} (h : x.extras = 0) : x = .none := by
  cases x with
  | none => rfl
  | otherwise => cases h
  | elseif => cases h

theorem Expr.covered (hn : 0 ≤ n) (e : Expr) : Covered n e.events :=
  covered_of_isQuiet hn e.quiet

mutual

theorem Stmt.covered {n : Int} (hn : 0 ≤ n) : ∀ s : Stmt, s.extras = 0 → Covered n s.events
  | .call name args, _ => (Expr.call name args).covered hn
  | .special name args, _ => (Expr.special name args).covered hn
  | .assign (.variable _) e, _ => by
    rw [Stmt.events, covered_append, balanceOf_expr, Int.add_zero]
    exact ⟨e.covered hn, covered_cons_of rfl rfl hn trivial⟩
  | .assign (.element _ index) e, _ => by
    rw [Stmt.events, covered_append, balanceOf_expr, Int.add_zero]
    refine ⟨index.covered hn, covered_cons_of rfl rfl hn ?_⟩
    rw [covered_append, balanceOf_expr, Int.add_zero]
    exact ⟨e.covered hn, covered_cons_of rfl rfl hn trivial⟩
  | .update u t, _ => (Expr.update u t).covered hn
  | .giveBack e, _ => by
    rw [Stmt.events, covered_append, balanceOf_expr, Int.add_zero]
    exact ⟨e.covered hn, covered_cons_of rfl rfl hn trivial⟩
  | .leave, _ => covered_cons_of rfl rfl hn trivial
  | .branch condition body rest, h => by
    obtain ⟨hbody, hrest⟩ := Nat.add_eq_zero_iff.1 h
    have hbalance := body.balance_add_extras
    rw [Stmt.events, covered_append, balanceOf_expr, Int.add_zero]
    refine ⟨condition.covered hn, hn, ?_⟩
    rw [covered_append]
    refine ⟨body.covered (by simp [balance]; omega) hbody, rest.covered ?_ hrest⟩
    simp [balance]
    omega
  | .loop condition body, h => by
    have hbalance := body.balance_add_extras
    rw [show body.extras = 0 from h] at hbalance
    refine ⟨hn, ?_⟩
    rw [covered_append, balanceOf_expr, Int.add_zero]
    refine ⟨condition.covered (by simp [balance]; omega), by simp [pops, balance]; omega, ?_⟩
    rw [covered_append]
    refine ⟨body.covered (by simp [balance]; omega) h, ?_, ?_, trivial⟩
    · simp [pops, balance]
      omega
    · simp [pops, balance]
      omega

theorem Block.covered {n : Int} (hn : 0 ≤ n) : ∀ b : Block, b.extras = 0 → Covered n b.events
  | .nil, _ => trivial
  | .cons s rest, h => by
    obtain ⟨hs, hrest⟩ := Nat.add_eq_zero_iff.1 h
    have hbalance := s.balance_add_extras
    rw [Block.events, covered_append]
    exact ⟨s.covered hn hs, rest.covered (by omega) hrest⟩

theorem Branches.covered {n : Int} (hn : 1 ≤ n) : ∀ b : Branches, b.extras = 0 → Covered n b.events
  | .done, _ => ⟨hn, trivial⟩
  | .otherwise body more, h => by
    obtain ⟨hbody, hmore⟩ := Nat.add_eq_zero_iff.1 h
    obtain rfl := Extra.eq_none hmore
    have hbalance := body.balance_add_extras
    refine ⟨hn, ?_⟩
    rw [covered_append]
    refine ⟨body.covered (by simp [balance]; omega) hbody, ?_, trivial⟩
    simp [pops, balance]
    omega
  | .elseif condition body rest more, h => by
    obtain ⟨h, hmore⟩ := Nat.add_eq_zero_iff.1 h
    obtain ⟨hbody, hrest⟩ := Nat.add_eq_zero_iff.1 h
    obtain rfl := Extra.eq_none hmore
    have hbalance := body.balance_add_extras
    have hbalance' := rest.balance_add_extras
    refine ⟨hn, ?_⟩
    rw [covered_append, balanceOf_expr, Int.add_zero]
    refine ⟨condition.covered (by simp [balance]; omega), by simp [pops, balance]; omega, ?_⟩
    rw [covered_append, covered_append]
    refine ⟨body.covered (by simp [balance]; omega) hbody, rest.covered (by simp [balance]; omega)
      hrest, ?_, trivial⟩
    simp [pops, balance]
    omega

end

theorem FunctionTree.covered (hn : 0 ≤ n) {fs : List FunctionTree} (h : extrasOf fs = 0) :
    Covered n (fs.flatMap events) := by
  induction fs with
  | nil => trivial
  | cons f fs ih =>
    obtain ⟨hbody, hfs⟩ := Nat.add_eq_zero_iff.1 h
    have hbalance := f.body.balance_add_extras
    rw [List.flatMap_cons, covered_append]
    refine ⟨covered_cons_of rfl rfl hn ?_, ?_⟩
    · rw [innerEvents, covered_append, balanceOf_sizesOf, Int.add_zero]
      refine ⟨covered_of_isQuiet hn (quiet_sizesOf _), covered_cons_of rfl rfl hn ?_⟩
      rw [covered_append]
      exact ⟨f.body.covered hn hbody, covered_cons_of rfl rfl (by omega) trivial⟩
    · have hzero : balanceOf f.events = 0 := by
        simp [events, innerEvents, balance]
        omega
      rw [hzero, Int.add_zero]
      exact ih hfs

/-- If no branch follows a last branch, there is a jump for every event that completes one. -/
theorem Tree.covered {p : Tree} (h : p.extras = 0) : Covered 0 p.events := by
  obtain ⟨hfunctions, hmain⟩ := Nat.add_eq_zero_iff.1 h
  have hbalance := FunctionTree.balance_add_extras p.functions
  have hbalance' := p.main.balance_add_extras
  rw [Tree.events, covered_append, balanceOf_sizesOf, Int.add_zero]
  refine ⟨covered_of_isQuiet (by omega) (quiet_sizesOf _), covered_cons_of rfl rfl (by omega) ?_⟩
  rw [covered_append]
  refine ⟨FunctionTree.covered (by omega) hfunctions, covered_cons_of rfl rfl (by omega) ?_⟩
  rw [covered_append]
  exact ⟨p.main.covered (by omega) hmain, covered_cons_of rfl rfl (by omega) trivial⟩

/-! ## Conditions of loops -/

namespace Event

variable {b : Bool}

theorem tested_append : Tested b (xs ++ ys) ↔ Tested b xs ∧ Tested (xs.foldl marks b) ys := by
  induction xs generalizing b with
  | nil => simp [Tested]
  | cons e xs ih => simp [Tested, ih, and_assoc]

theorem marks_of_isQuiet (he : e.isQuiet = true) : e.marks b = b := by
  cases e <;> first | rfl | cases he

/-- Within an expression nothing is marked, tested or completed. -/
theorem tested_of_isQuiet (h : ∀ e ∈ es, e.isQuiet = true) :
    Tested b es ∧ es.foldl marks b = b := by
  induction es with
  | nil => exact ⟨trivial, rfl⟩
  | cons e es ih =>
    obtain ⟨he, hes⟩ := List.forall_mem_cons.1 h
    obtain ⟨htested, hmarks⟩ := ih hes
    have hmark : e.marks b = b := marks_of_isQuiet he
    refine ⟨⟨?_, ?_⟩, ?_⟩
    · rintro rfl
      cases he
    · rwa [hmark]
    · rwa [List.foldl_cons, hmark]

/-- All conditions that begin in these events are tested. -/
def Settled (es : List Event) : Prop :=
  Tested false es ∧ es.foldl marks false = false

theorem settled_of_isQuiet (h : ∀ e ∈ es, e.isQuiet = true) : Settled es :=
  tested_of_isQuiet h

theorem settled_nil : Settled [] :=
  ⟨trivial, rfl⟩

theorem Settled.append (hx : Settled xs) (hy : Settled ys) : Settled (xs ++ ys) := by
  refine ⟨tested_append.2 ⟨hx.1, ?_⟩, ?_⟩
  · rw [hx.2]
    exact hy.1
  · rw [List.foldl_append, hx.2]
    exact hy.2

theorem Settled.cons (h : Settled es) (he : e.marks false = false) : Settled (e :: es) := by
  refine ⟨⟨fun _ => rfl, ?_⟩, ?_⟩
  · rw [he]
    exact h.1
  · rw [List.foldl_cons, he]
    exact h.2

/-- A loop: its condition, and what comes after the test. -/
theorem Settled.loop (hx : ∀ e ∈ xs, e.isQuiet = true) (h : Settled es) :
    Settled (.markLoop :: (xs ++ .testLoop :: es)) := by
  obtain ⟨htested, hmarks⟩ := tested_of_isQuiet (b := true) hx
  refine ⟨⟨by simp, tested_append.2 ⟨htested, by simp, h.1⟩⟩, ?_⟩
  rw [List.foldl_cons, List.foldl_append]
  show (Event.testLoop :: es).foldl marks (xs.foldl marks true) = false
  rw [hmarks]
  exact h.2

end Event

/-- In a tree every condition of a loop is tested before a jump is completed. -/
theorem Tree.settled (p : Tree) : Settled p.events :=
  p.composed
    { nil := settled_nil
      append := .append
      expr := fun e => settled_of_isQuiet e.quiet
      single := fun e he => settled_nil.cons (by cases e <;> first | rfl | cases he)
      loop := fun condition _ h =>
        .loop condition.quiet (h.append ((settled_nil.cons rfl).cons rfl)) }
    (fun gs => settled_of_isQuiet (quiet_sizesOf gs))
    fun e he => settled_nil.cons (by cases e <;> first | rfl | cases he)

/-! ## The compiler -/

namespace Compiler

variable {N : Prop} {b : Bool} {c c' : Compiler}

/-- What waits for a target is a quad. While the condition of a loop is read, it may be the next
one. -/
structure Bounded (b : Bool) (c : Compiler) : Prop where
  breaks : ∀ i ∈ c.breaks, i < c.quads.size
  selfCalls : ∀ p ∈ c.selfCalls, p.1 < c.quads.size
  jumps : ∀ i ∈ c.jumps, i < c.quads.size + b.toNat

theorem Bounded.weaken (h : Bounded b c) : Bounded true c :=
  { h with jumps := fun i hi =>
    Nat.lt_of_lt_of_le (h.jumps i hi) (Nat.add_le_add_left b.toNat_le _) }

/-- More quads are no harm. -/
theorem Bounded.mono (h : Bounded b c) (hsize : c.quads.size ≤ c'.quads.size)
    (hself : ∀ p ∈ c'.selfCalls, p.1 < c'.quads.size) (hbreaks : ∀ i ∈ c'.breaks, i ∈ c.breaks)
    (hjumps : ∀ i ∈ c'.jumps, i ∈ c.jumps) : Bounded b c' where
  breaks i hi := Nat.lt_of_lt_of_le (h.breaks i (hbreaks i hi)) hsize
  selfCalls := hself
  jumps i hi := Nat.lt_of_lt_of_le (h.jumps i (hjumps i hi)) (Nat.add_le_add_right hsize _)

theorem Acts.bounded (ha : Acts e c c') (h : Bounded b c) : Bounded (e.marks b) c' := by
  have hsize := ha.size_le
  have hself : ∀ p ∈ c'.selfCalls, p.1 < c'.quads.size := by
    intro p hp
    rcases ha.selfCalls with hsame | ⟨i, a, _, _, hadded, _, hi, -⟩
    · exact Nat.lt_of_lt_of_le (h.selfCalls p (hsame ▸ hp)) hsize
    · rcases List.mem_append.1 (hadded ▸ hp) with hp | hp
      · exact Nat.lt_of_lt_of_le (h.selfCalls p hp) hsize
      · rw [List.mem_singleton.1 hp]
        exact (Array.getElem?_eq_some_iff.1 hi).1
  by_cases he : e.isQuiet = true
  · rw [Event.marks_of_isQuiet he]
    have hquiet := ha.quiet he
    exact h.mono hsize hself (fun i hi => hquiet.breaks ▸ hi) fun i hi => hquiet.jumps ▸ hi
  · cases ha with
    | declareGlobals hv =>
      have htab := tabulates_globals (.declareGlobals hv)
      exact h.mono hsize hself (fun i hi => by rwa [htab.breaks] at hi) fun i hi => by
        rwa [htab.jumps] at hi
    | declareLocals hp hv =>
      have htab := tabulates_locals (.declareLocals hp hv)
      exact h.mono hsize hself (fun i hi => by rwa [htab.breaks] at hi) fun i hi => by
        rwa [htab.jumps] at hi
    | giveBack =>
      rw [completeAll_eq] at hsize hself ⊢
      exact h.mono hsize hself (fun _ hi => hi) fun _ hi => hi
    | closeIf hjumps =>
      exact h.mono hsize hself (fun _ hi => hi) fun i hi => hjumps ▸ List.mem_cons_of_mem _ hi
    | closeLoop hjumps =>
      rw [completeAll_eq] at hsize hself ⊢
      exact h.mono hsize hself (fun _ hi => by cases hi) fun i hi =>
        hjumps ▸ List.mem_cons_of_mem _ (List.mem_cons_of_mem _ hi)
    | breakLoop =>
      refine ⟨fun i hi => ?_, hself, fun i hi => ?_⟩
      · rcases List.mem_append.1 hi with hi | hi
        · exact Nat.lt_of_lt_of_le (h.breaks i hi) hsize
        · rw [List.mem_singleton.1 hi]
          simp [emit]
      · exact Nat.lt_of_lt_of_le (h.jumps i hi) (Nat.add_le_add_right hsize _)
    | testIf =>
      refine ⟨fun i hi => Nat.lt_of_lt_of_le (h.breaks i hi) hsize, hself, List.forall_mem_cons.2
        ⟨?_, fun i hi => ?_⟩⟩
      · simp [emit]
        omega
      · exact Nat.lt_of_lt_of_le (h.jumps i hi) (Nat.add_le_add_right hsize _)
    | elseBranch hjumps =>
      refine ⟨fun i hi => Nat.lt_of_lt_of_le (h.breaks i hi) hsize, hself, List.forall_mem_cons.2
        ⟨?_, fun i hi => ?_⟩⟩
      · simp [emit]
        omega
      · exact Nat.lt_of_lt_of_le (h.jumps i (hjumps ▸ List.mem_cons_of_mem _ hi))
          (Nat.add_le_add_right hsize _)
    | markLoop =>
      exact { h.weaken with jumps := List.forall_mem_cons.2 ⟨Nat.lt_succ_self _, h.weaken.jumps⟩ }
    | testLoop =>
      -- the quad that is emitted is one more than those that were remembered
      refine ⟨fun i hi => Nat.lt_of_lt_of_le (h.breaks i hi) hsize, hself, List.forall_mem_cons.2
        ⟨?_, fun i hi => ?_⟩⟩
      · simp [emit, marks]
      · have hi' := h.weaken.jumps i hi
        simpa [emit, marks] using hi'
    | enterMain | finish | defineFunction | endFunction | leaveLoop =>
      exact h.mono hsize hself (fun _ hi => hi) fun _ hi => hi
    | _ => exact absurd rfl he

/-- The function of every call that is due to end is known. -/
def Knows (c : Compiler) (due : List Event) : Prop :=
  ∀ name, .endCall name ∈ due → (c.function? (some name)).isSome = true

theorem Acts.knows {due' : List Event} (ha : Acts e c c') (hnest : e.nest due = some due')
    (h : c.Knows due) : c'.Knows due' := by
  have hkept : ∀ {s : Scope}, (c.function? s).isSome = true → (c'.function? s).isSome = true := by
    intro s hs
    obtain ⟨f, hf⟩ := Option.isSome_iff_exists.1 hs
    obtain ⟨f', hf', -⟩ := ha.keepsTable.kept hf
    rw [hf']
    rfl
  intro name hname
  by_cases he : e.isCall = false
  · rw [Event.nest_of_not_isCall he] at hnest
    cases hnest
    exact hkept (h name hname)
  · cases ha with
    | beginCall hknown =>
      cases hnest
      rcases List.mem_cons.1 hname with hname | hname
      · cases hname
        exact hkept hknown
      · exact hkept (h name hname)
    | beginSpecial =>
      cases hnest
      rcases List.mem_cons.1 hname with hname | hname
      · cases hname
      · exact hkept (h name hname)
    | callVoid | callKnown | callSelf | specialVoid | specialValue =>
      simp only [Event.nest, Option.ite_none_right_eq_some, Option.some.injEq] at hnest
      obtain ⟨-, rfl⟩ := hnest
      exact hkept (h name (List.mem_of_mem_tail hname))
    | _ => exact absurd rfl he

/-- There is a first quad once the global variables have been declared. -/
theorem Acts.started {p' : Position} (ha : Acts e c c') (hm : Position.Admits e p p')
    (h : p ≠ .start → 0 < c.quads.size) : p' ≠ .start → 0 < c'.quads.size := by
  intro hp'
  have hsize := ha.size_le
  cases hm with
  | globals =>
    rw [(tabulates_globals ha).quads]
    simp [emit]
  | size | inner => exact Nat.lt_of_lt_of_le (h hp') hsize
  | define | locals | close | enter | finish => exact Nat.lt_of_lt_of_le (h (by simp)) hsize

/-- What the events so far have left: in which position they end, whether the condition of a loop is
being read, and which calls are due to end. -/
structure After (N : Prop) (p : Position) (b : Bool) (due : List Event) (c : Compiler) : Prop where
  kinded : Kinded N c
  bounded : Bounded b c
  started : p ≠ .start → 0 < c.quads.size
  called : c.called = due.map Event.callee
  known : c.Knows due

theorem after_empty : After N .start false [] {} where
  kinded := {
    operands := fun _ => List.forall_mem_nil _
    arguments := fun _ => List.forall_mem_nil _
    offset := fun _ o ho => by cases ho
    functions := List.forall_mem_singleton.2
      ⟨fun k hk => (by cases hk), List.forall_mem_nil _, List.forall_mem_nil _⟩
    chained := List.forall_mem_nil _ }
  bounded := ⟨List.forall_mem_nil _, List.forall_mem_nil _, List.forall_mem_nil _⟩
  started hp := absurd rfl hp
  called := rfl
  known name hname := by cases hname

theorem RunsBy.after {p' : Position} {due' : List Event} (hr : Runs es c c')
    (hfollows : Position.Follows p es p') (hnest : es.foldlM Event.nest due = some due')
    (husual : ∀ e ∈ es, e.IsUsual) (hN : N → ∀ o, .unary o ∉ es) (h : After N p b due c) :
    After N p' (es.foldl Event.marks b) due' c' := by
  induction hr generalizing p b due with
  | nil =>
    cases hfollows
    cases hnest
    exact h
  | cons ha _ ih =>
    cases hfollows with
    | cons hm hrest =>
      rw [List.foldlM_cons] at hnest
      obtain ⟨due₁, hfirst, hdue⟩ := Option.bind_eq_some_iff.1 hnest
      obtain ⟨hu, hus⟩ := List.forall_mem_cons.1 husual
      refine ih hrest hdue hus (fun hN' o ho => hN hN' o (List.mem_cons_of_mem _ ho)) ?_
      exact {
        kinded := ha.kinded hu (fun hN' o ho => hN hN' o (ho ▸ List.mem_cons_self)) h.kinded
        bounded := ha.bounded h.bounded
        started := ha.started hm h.started
        called := ha.called h.called hfirst
        known := ha.knows hfirst h.known }

/-- The compiler holds what an event takes. -/
structure Ready (N E : Prop) (e : Event) (c : Compiler) : Prop where
  usual : e.IsUsual
  kinded : Kinded N c
  bounded : Bounded true c
  closing : e = .closeIf → Bounded false c
  jumps : E → e.pops ≤ c.jumps.length
  started : e = .enterMain → 0 < c.quads.size
  called : ∀ name, e = .endCall name → ∃ rest, c.called = some name :: rest ∧
    (c.function? (some name)).isSome = true
  special : ∀ name, e = .endSpecial name → ∃ rest, c.called = some name :: rest

/-- A call that ends is the one that is due first. -/
theorem After.called_of_head (h : After N p b due c) (hhead : due.head? = some e) :
    ∃ rest, c.called = e.callee :: rest := by
  obtain ⟨due', rfl⟩ := List.head?_eq_some_iff.1 hhead
  exact ⟨_, h.called⟩

/-- The compiler that has taken the first events of a tree is ready for the next one. -/
theorem ready {p : Tree} (hr : Runs xs {} c) (hp : p.events = xs ++ e :: ys) :
    Ready (∀ o, .unary o ∉ xs) (p.extras = 0) e c := by
  have hfollows := p.follows
  have hnested := p.nested []
  have hsettled := p.settled.1
  have husual := p.isUsual
  rw [hp, Position.follows_append] at hfollows
  rw [hp, List.foldlM_append] at hnested
  rw [hp, Event.tested_append] at hsettled
  rw [hp, List.forall_mem_append, List.forall_mem_cons] at husual
  -- What is known of the whole tree, up to the next event.
  obtain ⟨q, hxs, hrest⟩ := hfollows
  obtain ⟨due, hdue, hdues⟩ := Option.bind_eq_some_iff.1 hnested
  rw [List.foldlM_cons] at hdues
  obtain ⟨due', hnest, -⟩ := Option.bind_eq_some_iff.1 hdues
  have hafter : After (∀ o, .unary o ∉ xs) q _ due c := hr.after hxs hdue husual.1 id after_empty
  refine ⟨husual.2.1, hafter.kinded, hafter.bounded.weaken, ?_, ?_, ?_, ?_, ?_⟩
  · intro he
    rw [← hsettled.2.1 he]
    exact hafter.bounded
  · intro hextras
    have hcovered := Tree.covered hextras
    rw [hp, Event.covered_append] at hcovered
    have hlength : (c.jumps.length : Int) = 0 + Event.balanceOf xs := hr.length_jumps
    have hpops := hcovered.2.1
    omega
  · rintro rfl
    apply hafter.started
    cases hrest with
    | cons hm _ =>
      cases hm with
      | enter => simp
      | size h => cases h.isQuiet
      | inner h => cases h
  · rintro name rfl
    simp only [Event.nest, Option.ite_none_right_eq_some] at hnest
    obtain ⟨rest, hcalled⟩ := hafter.called_of_head hnest.1
    exact ⟨rest, hcalled, hafter.known name (List.mem_of_mem_head? hnest.1)⟩
  · rintro name rfl
    simp only [Event.nest, Option.ite_none_right_eq_some] at hnest
    exact hafter.called_of_head hnest.1

end Compiler

end Symphony
