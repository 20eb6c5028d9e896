import Symphony.Proofs.Breaks
import Symphony.Proofs.Order
import Symphony.Proofs.SelfCalls

/-!
# Where breaks and returns stand

In the grammar a break or a return is a statement like any other. That a break is in a loop, and
that a function has the returns it should have, is left to the compiler. It counts the loops that
are open, in one number for the whole program, and it notes for each function where its result is,
once.

**Theorem (`Compiled.breaks_returns_placed`).** In an accepted program every break is in a loop of
its own function, or of the main part if it is there. A function with a result has one return, in
all of its branches and loops together. A function without a result and the main part have none.

A break in no loop has whole loops before it (`Event.BreaksOutside`), so the number of open loops is
the one from the start of the program, which is zero. The returns of a function are counted by the
place of its result (`Compiler.Returned`): it is set by the first return, it stands in the way of a
second one, and the end of the function asks for it.
-/

namespace Symphony

variable {es : List Event} {p : Tree}

/-! ## Breaks and returns in trees -/

mutual

/-- The breaks of a statement that are in none of its loops. -/
def Stmt.strayBreaks : Stmt → Nat
  | .leave => 1
  | .branch _ body rest => body.strayBreaks + rest.strayBreaks
  | .call .. | .special .. | .assign .. | .update .. | .giveBack _ | .loop .. => 0

def Block.strayBreaks : Block → Nat
  | .nil => 0
  | .cons s rest => s.strayBreaks + rest.strayBreaks

def Branches.strayBreaks : Branches → Nat
  | .done => 0
  | .otherwise body more => body.strayBreaks + more.strayBreaks
  | .elseif _ body rest more => body.strayBreaks + (rest.strayBreaks + more.strayBreaks)

def Extra.strayBreaks : Extra → Nat
  | .none => 0
  | .otherwise body => body.strayBreaks
  | .elseif _ body rest => body.strayBreaks + rest.strayBreaks

end

mutual

/-- The returns of a statement, with those in its branches and loops. -/
def Stmt.returns : Stmt → Nat
  | .giveBack _ => 1
  | .branch _ body rest => body.returns + rest.returns
  | .loop _ body => body.returns
  | .call .. | .special .. | .assign .. | .update .. | .leave => 0

def Block.returns : Block → Nat
  | .nil => 0
  | .cons s rest => s.returns + rest.returns

def Branches.returns : Branches → Nat
  | .done => 0
  | .otherwise body more => body.returns + more.returns
  | .elseif _ body rest more => body.returns + (rest.returns + more.returns)

def Extra.returns : Extra → Nat
  | .none => 0
  | .otherwise body => body.returns
  | .elseif _ body rest => body.returns + rest.returns

end

/-- Breaks are in loops, and there is one return in each function with a result and none
elsewhere. -/
structure Tree.WellPlaced (p : Tree) : Prop where
  main_breaks : p.main.strayBreaks = 0
  main_returns : p.main.returns = 0
  breaks : ∀ f ∈ p.functions, f.body.strayBreaks = 0
  returns : ∀ f ∈ p.functions, f.body.returns = if f.result = none then 0 else 1

/-! ## Breaks in no loop -/

namespace Event

/-- There is a break before which every loop has ended. -/
def BreaksOutside (es : List Event) : Prop :=
  ∃ before after, es = before ++ .breakLoop :: after ∧ Looped before

variable {e : Event} {xs ys : List Event}

theorem BreaksOutside.append_left (h : BreaksOutside xs) (ys : List Event) :
    BreaksOutside (xs ++ ys) := by
  obtain ⟨before, after, rfl, hbefore⟩ := h
  exact ⟨before, after ++ ys, by simp, hbefore⟩

theorem BreaksOutside.append_right (hx : Looped xs) (h : BreaksOutside ys) :
    BreaksOutside (xs ++ ys) := by
  obtain ⟨before, after, rfl, hbefore⟩ := h
  exact ⟨xs ++ before, after, by simp, hx.append hbefore⟩

theorem BreaksOutside.cons (he : e.isLoop = false) (h : BreaksOutside es) :
    BreaksOutside (e :: es) :=
  h.append_right (looped_singleton he)

/-- One of two numbers of breaks is positive. -/
theorem breaksOutside_append {m n : Nat} (hpos : 0 < m + n) (hlooped : Looped xs)
    (hx : 0 < m → BreaksOutside xs) (hy : 0 < n → BreaksOutside ys) : BreaksOutside (xs ++ ys) := by
  rcases Nat.eq_zero_or_pos m with rfl | hm
  · exact (hy (by omega)).append_right hlooped
  · exact (hx hm).append_left ys

end Event

open Event

mutual

theorem Stmt.breaksOutside : ∀ s : Stmt, 0 < s.strayBreaks → BreaksOutside s.events
  | .leave, _ => ⟨[], [], rfl, .nil⟩
  | .branch condition body rest, h =>
    .append_right condition.looped
      (.cons rfl (breaksOutside_append h body.looped body.breaksOutside rest.breaksOutside))

theorem Block.breaksOutside : ∀ b : Block, 0 < b.strayBreaks → BreaksOutside b.events
  | .cons s rest, h => breaksOutside_append h s.looped s.breaksOutside rest.breaksOutside

theorem Branches.breaksOutside : ∀ b : Branches, 0 < b.strayBreaks → BreaksOutside b.events
  | .otherwise body more, h =>
    .cons rfl (breaksOutside_append h body.looped body.breaksOutside fun h =>
      .cons rfl (more.breaksOutside h))
  | .elseif condition body rest more, h =>
    .cons rfl (.append_right condition.looped
      (.cons rfl (breaksOutside_append h body.looped body.breaksOutside
      fun h => breaksOutside_append h rest.looped rest.breaksOutside fun h =>
        .cons rfl (more.breaksOutside h))))

theorem Extra.breaksOutside : ∀ x : Extra, 0 < x.strayBreaks → BreaksOutside x.events
  | .otherwise body, h => .cons rfl ((body.breaksOutside h).append_left _)
  | .elseif condition body rest, h =>
    .cons rfl (.append_right condition.looped
      (.cons rfl (breaksOutside_append h body.looped body.breaksOutside
      fun h => (rest.breaksOutside h).append_left _)))

end

theorem Tree.looped_opening (p : Tree) : Looped p.opening :=
  (looped_sizesOf p.globals).append (looped_singleton rfl)

/-! ## Counting returns -/

theorem Event.count_giveBack_of_isQuiet (h : ∀ e ∈ es, e.isQuiet = true) : es.count .giveBack = 0 :=
  List.count_eq_zero.2 fun hmem => Bool.noConfusion (h _ hmem)

theorem Expr.count_giveBack (e : Expr) : e.events.count .giveBack = 0 :=
  count_giveBack_of_isQuiet e.quiet

mutual

theorem Stmt.count_giveBack : ∀ s : Stmt, s.events.count .giveBack = s.returns
  | .call name args => (Expr.call name args).count_giveBack
  | .special name args => (Expr.special name args).count_giveBack
  | .assign (.variable _) e => by simp [Stmt.events, Stmt.returns, e.count_giveBack]
  | .assign (.element _ index) e => by
    simp [Stmt.events, Stmt.returns, index.count_giveBack, e.count_giveBack]
  | .update u t => (Expr.update u t).count_giveBack
  | .giveBack e => by simp [Stmt.events, Stmt.returns, e.count_giveBack]
  | .leave => rfl
  | .branch condition body rest => by
    simp [Stmt.events, Stmt.returns, condition.count_giveBack, body.count_giveBack,
      rest.count_giveBack]
  | .loop condition body => by
    simp [Stmt.events, Stmt.returns, condition.count_giveBack, body.count_giveBack]

theorem Block.count_giveBack : ∀ b : Block, b.events.count .giveBack = b.returns
  | .nil => rfl
  | .cons s rest => by simp [Block.events, Block.returns, s.count_giveBack, rest.count_giveBack]

theorem Branches.count_giveBack : ∀ b : Branches, b.events.count .giveBack = b.returns
  | .done => rfl
  | .otherwise body more => by
    simp [Branches.events, Branches.returns, body.count_giveBack, more.count_giveBack]
  | .elseif condition body rest more => by
    simp [Branches.events, Branches.returns, condition.count_giveBack, body.count_giveBack,
      rest.count_giveBack, more.count_giveBack]

theorem Extra.count_giveBack : ∀ x : Extra, x.events.count .giveBack = x.returns
  | .none => rfl
  | .otherwise body => by simp [Extra.events, Extra.returns, body.count_giveBack]
  | .elseif condition body rest => by
    simp [Extra.events, Extra.returns, condition.count_giveBack, body.count_giveBack,
      rest.count_giveBack]

end

/-! ## What the compiler asks for -/

namespace Compiler

variable {c c' : Compiler} {e : Event} {k : Option Kind} {n : Nat}

/-- With no loop open, a break is taken in a loop only. -/
theorem RunsBy.not_breaksOutside (hr : Runs es c c') (hopen : c.openLoops = 0) :
    ¬BreaksOutside es := by
  rintro ⟨before, after, rfl, hbefore⟩
  obtain ⟨d, hruns, hrest⟩ := runs_append.1 hr
  obtain ⟨d', hbreak, -⟩ := runs_cons.1 hrest
  cases hbreak with
  | breakLoop hne => exact hne ((hruns.openLoops hbefore).trans hopen)

theorem strayBreaks_eq_zero {b : Block} (hr : Runs b.events c c') (hopen : c.openLoops = 0) :
    b.strayBreaks = 0 :=
  Nat.eq_zero_of_not_pos fun hpos => hr.not_breaksOutside hopen (b.breaksOutside hpos)

/-- Outside of functions no return is taken. -/
theorem RunsBy.giveBack_not_mem (hr : Runs es c c') (hes : ∀ e ∈ es, e.isInner = true)
    (hscope : c.scope = none) : Event.giveBack ∉ es := by
  induction hr with
  | nil => exact List.not_mem_nil
  | @cons e es c c' _ ha _ ih =>
    obtain ⟨he, hes⟩ := List.forall_mem_cons.1 hes
    rw [List.mem_cons, not_or]
    refine ⟨?_, ih hes ((ha.scope_of_isInner he).trans hscope)⟩
    rintro rfl
    cases ha with
    | giveBack _ hne => exact hne hscope

/-- The function that is being defined has a result of kind `k` (or none), and `n` returns have been
taken in it. -/
def Returned (k : Option Kind) (n : Nat) (c : Compiler) : Prop :=
  ∃ os place, c.outcomes = os ++ [(c.scope, k, place)] ∧ (∀ o ∈ os, o.1 ≠ c.scope) ∧
    place.toList.length = n

theorem Acts.returned (ha : Acts e c c') (he : e.isInner = true) (hord : Ordered c)
    (h : Returned k n c) : Returned k ([e].count .giveBack + n) c' := by
  obtain ⟨os, place, hout, hos, rfl⟩ := h
  by_cases hreturn : e = .giveBack
  · subst hreturn
    obtain ⟨os', k', x, -, -, hlast, -, hlast', hscope, -⟩ := hord.outcomes_giveBack ha
    obtain ⟨rfl, hsame⟩ := List.append_inj' (hout.symm.trans hlast) rfl
    obtain ⟨-, rfl, rfl⟩ : c.scope = c.scope ∧ k = some k' ∧ place = none := by simpa using hsame
    exact ⟨os, some x.place, hscope ▸ hlast', hscope ▸ hos, rfl⟩
  · have hsame := ha.outcomes (by rintro _ _ rfl; cases he) hreturn
    rw [← ha.scope_of_isInner he] at hout hos
    refine ⟨os, place, hsame.trans hout, hos, ?_⟩
    rw [List.count_singleton, if_neg (by simpa using hreturn), Nat.zero_add]

theorem RunsBy.returned (hr : Runs es c c') (hes : ∀ e ∈ es, e.isInner = true) (hord : Ordered c)
    (h : Returned k n c) : Returned k (es.count .giveBack + n) c' := by
  induction hr generalizing n with
  | nil => simpa using h
  | @cons e es _ _ _ ha _ ih =>
    obtain ⟨he, hes⟩ := List.forall_mem_cons.1 hes
    have hrest := ih hes (ha.ordered hord) (ha.returned he hord h)
    rwa [← Nat.add_assoc, Nat.add_comm (es.count _), ← List.count_append,
      List.singleton_append] at hrest

/-- Where a function ends, its returns are those that it should have. -/
theorem Returned.eq_of_endFunction (h : Returned k n c) (hord : Ordered c)
    (ha : Acts .endFunction c c') : n = if k = none then 0 else 1 := by
  obtain ⟨os, place, hout, hos, rfl⟩ := h
  obtain ⟨f, hf, hresult, hplace⟩ := function?_of_last hout hos
  have hcurrent : c.current = f := by rw [current, hf]; rfl
  have hown : place ≠ none → k ≠ none := hord.results (c.scope, k, place) (by simp [hout])
  cases ha with
  | endFunction hend =>
    rw [hcurrent, hresult, hplace] at hend
    cases place with
    | none =>
      have hk : k = none := hend.resolve_right fun hne => hne rfl
      simp [hk]
    | some x => simp [hown (by simp)]

namespace Phase

variable {xs ys : List FunctionTree} {f : FunctionTree} {c₁ c₂ c₃ : Compiler}

/-- At the start of its body a function has not returned. -/
theorem returned_zero (h : Phase p xs f ys c₁ c₂ c₃ c) :
    Returned (f.result.map Kind.value) 0 c₂ := by
  obtain ⟨d, -, hquiet, -, ⟨-, hnew⟩, hlocals⟩ := h.exists_head
  have hd : d.outcomes = c₁.outcomes ++ [(some f.name, f.result.map Kind.value, none)] := by
    rw [outcomes, hquiet.functions]
    exact outcomes_define c₁ f.result f.name
  refine ⟨c₁.outcomes, none, ?_, fun o ho => ?_, rfl⟩
  · rw [hlocals.outcomes (by simp) (by simp), hd, h.scope_eq]
  · obtain ⟨g, hg, rfl⟩ := List.mem_map.1 ho
    rw [h.scope_eq]
    simpa using List.find?_eq_none.1 hnew g hg

theorem returns_eq (h : Phase p xs f ys c₁ c₂ c₃ c) :
    f.body.returns = if f.result = none then 0 else 1 := by
  have hord : Ordered c₂ := h.head.plain.ordered (h.before.plain.ordered ordered_empty)
  have hreturned := h.body.plain.returned f.body.isInner hord h.returned_zero
  obtain ⟨d, ⟨hend, -⟩, -⟩ := runs_cons.1 h.after
  have hn := hreturned.eq_of_endFunction (h.body.plain.ordered hord) hend
  simpa only [f.body.count_giveBack, Nat.add_zero, Option.map_eq_none_iff] using hn

theorem strayBreaks_eq (h : Phase p xs f ys c₁ c₂ c₃ c) : f.body.strayBreaks = 0 := by
  have hhead : Looped f.head := .cons rfl ((looped_sizesOf f.vars).append (looped_singleton rfl))
  have hopen : c₁.openLoops = 0 :=
    h.before.plain.openLoops (p.looped_opening.append (FunctionTree.looped xs))
  exact strayBreaks_eq_zero h.body.plain ((h.head.plain.openLoops hhead).trans hopen)

end Phase

/-- Where the main part begins, no loop is open and no function is being defined. -/
theorem exists_main (hr : Runs p.events {} c) :
    ∃ d d', Runs p.main.events d d' ∧ d.openLoops = 0 ∧ d.scope = none := by
  have hsplit : p.events = (p.opening ++ p.functions.flatMap FunctionTree.events ++ [.enterMain]) ++
      (p.main.events ++ [.finish]) := by
    simp [p.events_eq, Tree.closing]
  rw [hsplit] at hr
  obtain ⟨d, hbefore, hmain⟩ := runs_append.1 hr
  obtain ⟨d', hbody, -⟩ := runs_append.1 hmain
  have hlooped : Looped (p.opening ++ p.functions.flatMap FunctionTree.events ++ [.enterMain]) :=
    (p.looped_opening.append (FunctionTree.looped p.functions)).append (looped_singleton rfl)
  have hfollows : Position.Follows .start
      (p.opening ++ p.functions.flatMap FunctionTree.events ++ [.enterMain]) .main :=
    (p.follows_opening.append (FunctionTree.follows_all p.functions)).append (.cons .enter (.nil _))
  have hat : d.IsAt .main := hbefore.isAt hfollows isAt_empty
  exact ⟨d, d', hbody, hbefore.openLoops hlooped, hat.scope_eq_none (by simp [Position.InFunction])⟩

end Compiler

open Compiler

theorem Tree.wellPlaced {c : Compiler} (hr : Runs p.events {} c) : p.WellPlaced := by
  have hphase : ∀ f ∈ p.functions, ∃ xs ys c₁ c₂ c₃, Phase p xs f ys c₁ c₂ c₃ c := fun f hf => by
    obtain ⟨xs, ys, hsplit⟩ := List.append_of_mem hf
    exact ⟨xs, ys, exists_phase (p.laidOut hr).1 hsplit⟩
  obtain ⟨d, d', hmain, hopen, hscope⟩ := exists_main hr
  refine ⟨strayBreaks_eq_zero hmain hopen, ?_, fun f hf => ?_, fun f hf => ?_⟩
  · rw [← p.main.count_giveBack]
    exact List.count_eq_zero.2 (hmain.giveBack_not_mem p.main.isInner hscope)
  · obtain ⟨xs, ys, c₁, c₂, c₃, hf⟩ := hphase f hf
    exact hf.strayBreaks_eq
  · obtain ⟨xs, ys, c₁, c₂, c₃, hf⟩ := hphase f hf
    exact hf.returns_eq

/-- The breaks and returns of an accepted source are where they belong. -/
theorem Compiled.breaks_returns_placed {line : Nat} {source : String}
    (h : (Compiled.ofSource line source).rejection = none) :
    (∃ p : Tree, p.events = (Trace.ofSource line source).events) ∧
      ∀ p : Tree, p.events = (Trace.ofSource line source).events → p.WellPlaced := by
  obtain ⟨p, hp, hruns⟩ := Compiled.exists_runs h
  exact ⟨⟨p, hp⟩, fun q hq => Tree.wellPlaced (hq.trans hp.symm ▸ hruns)⟩

/-- A break in a branch of a loop, and a return in the loop. -/
theorem Compiled.breaks_returns_placed_in_branches :
    let source := "program p; fun int f() { while (true) { if (true) { break; } return 1; } }"
    (Compiled.ofSource 1 source).rejection = none ∧
      ∃ p : Tree, p.WellPlaced ∧ p.events = (Trace.ofSource 1 source).events := by
  intro source
  have haccepted : (Compiled.ofSource 1 source).rejection = none := by
    decide +kernel
  obtain ⟨⟨p, hp⟩, hplaced⟩ := Compiled.breaks_returns_placed haccepted
  exact ⟨haccepted, p, hplaced p hp, hp⟩

end Symphony
