import Symphony.Proofs.SelfCalls
import Symphony.Proofs.Stacks

/-!
# Calls without a result where a value is needed

A call of a function without a result adds no operand. All that is checked where its value is needed
is that there is an operand on the stack, and there may be one: an update or a call with a result
that stands as a statement of its own leaves an operand that nothing takes. Each call without a
result that stands where a value is needed uses up one of these.

The height of the stack follows from the events alone, since what a call adds is known from the head
of the function. Where a value is taken, operators are not being noted, so the height is the number
of operands.

**Theorem (`Compiled.void_value_rejected`).** A source is rejected if somewhere in it more calls
without a result have stood where values are needed than statements before have left operands. In
particular the first such call is found if no statement before it has left an operand.
-/

namespace Symphony

variable {c : Compiler} {e : Event} {xs ys : List Event}

/-! ## Heights of the stack -/

namespace Event

/-- What an event adds to the number of operands less that of noted operators. -/
def gain (void : String → Bool) : Event → Int
  | .constant _ _ | .useVariable _ => 1
  | .dropSize | .selectElement | .assign _ | .power | .chain _ | .fold _ | .giveBack
  | .argument | .testIf
  | .testLoop => -1
  | .endCall name => if void name then 0 else 1
  | .endSpecial name => if Special.isVoid name then 0 else 1
  | _ => 0

def gainOf (void : String → Bool) : List Event → Int
  | [] => 0
  | e :: es => e.gain void + gainOf void es

theorem gainOf_append (void : String → Bool) (xs ys : List Event) :
    gainOf void (xs ++ ys) = gainOf void xs + gainOf void ys := by
  induction xs with
  | nil => simp [gainOf]
  | cons e xs ih => rw [List.cons_append, gainOf, ih, gainOf, Int.add_assoc]

theorem gainOf_arguments (void : String → Bool) (n : Nat) :
    gainOf void (List.replicate n .argument) = -n := by
  induction n with
  | zero => rfl
  | succ n ih =>
    rw [List.replicate_succ, gainOf, ih, gain]
    omega

/-- Events that take an operand when no operators are noted. -/
def takes : Event → Bool
  | .useElement _ | .selectElement | .assign _ | .giveBack | .argument | .testIf | .testLoop => true
  | _ => false

end Event

namespace Compiler

/-- The number of operands less that of noted operators. -/
def height (c : Compiler) : Int :=
  c.operands.length - c.chained.length

variable {c' : Compiler}

theorem height_of_held (h : c'.held = c.held) : c'.height = c.height := by
  obtain ⟨hoperands, hchained, -⟩ : c'.operands = c.operands ∧ c'.chained = c.chained ∧
      c'.arguments = c.arguments := by simpa [held] using h
  rw [height, height, hoperands, hchained]

theorem isVoid_of_function? {name : String} {f : Function} (h : c.function? (some name) = some f) :
    c.isVoid name = f.result.isNone := by
  rw [isVoid, h, Option.any_some]

theorem Acts.height (ha : Acts e c c')
    (hcall : ∀ name, e = .endCall name → ∃ rest, c.called = some name :: rest)
    (hspecial : ∀ name, e = .endSpecial name → ∃ rest, c.called = some name :: rest) :
    c'.height = c.height + e.gain c.isVoid := by
  cases ha with
  | declareGlobals hv => exact (height_of_held hv.held).trans (Int.add_zero _).symm
  | declareLocals hp hv =>
    exact (height_of_held (hv.held.trans hp.held)).trans (Int.add_zero _).symm
  | oldConstant | newConstant | useVariable =>
    simp only [Compiler.height, push, reserve, Event.gain, List.length_cons]
    omega
  | dropSize hx | selectElement hx | testIf hx | testLoop hx | argument hx | assignVariable _ _ _ hx
  | assignElement _ _ _ _ _ hx =>
    simp only [Compiler.height, emit, point, reserve, Event.gain, hx, List.length_cons]
    omega
  | useElement hx | update hx | unary hx =>
    simp only [Compiler.height, push, emit, reserve, point, Event.gain, hx, List.length_cons]
    omega
  | giveBack _ _ hx =>
    rw [completeAll_eq]
    simp only [Compiler.height, updateCurrent, Event.gain, hx, List.length_cons]
    omega
  | power hx hop =>
    cases hop
    simp only [Compiler.height, push, emit, reserve, Event.gain, hx, List.length_cons]
    omega
  | chain =>
    simp only [Compiler.height, Event.gain, List.length_cons]
    omega
  | fold hdrop =>
    -- An operand is taken for each noted operator and one for the operator of the event.
    have hlength := congrArg List.length hdrop
    simp only [List.length_drop, List.length_cons] at hlength
    simp only [Compiler.height, Event.gain, List.length_cons, List.length_nil]
    omega
  | callVoid hname hf _ _ hresult =>
    obtain ⟨_, hcalled⟩ := hcall _ rfl
    cases hname.symm.trans hcalled
    simp [Compiler.height, enterFunction, emit, emitAll, Event.gain,
      isVoid_of_function? hf, hresult]
  | callKnown hname hf _ _ hresult | callSelf hname hf _ _ hresult =>
    obtain ⟨_, hcalled⟩ := hcall _ rfl
    cases hname.symm.trans hcalled
    simp [Compiler.height, enterFunction, emit, emitAll, push, reserve, Event.gain,
      isVoid_of_function? hf, hresult]
    omega
  | specialVoid hname hs _ _ hresult =>
    obtain ⟨_, hcalled⟩ := hspecial _ rfl
    cases hname.symm.trans hcalled
    simp [Compiler.height, emit, emitAll, Event.gain, Special.isVoid, hs, hresult]
  | specialValue hname hs _ _ hresult =>
    obtain ⟨_, hcalled⟩ := hspecial _ rfl
    cases hname.symm.trans hcalled
    simp [Compiler.height, emit, emitAll, push, reserve, Event.gain, Special.isVoid, hs, hresult]
    omega
  | closeLoop =>
    rw [completeAll_eq]
    exact (Int.add_zero _).symm
  | _ => exact (Int.add_zero _).symm

/-- Events that take an operand find one. -/
theorem Acts.operands_ne_nil (ha : Acts e c c') (he : e.takes = true) : c.operands ≠ [] := by
  cases ha with
  | useElement hx | selectElement hx | assignVariable _ _ _ hx | assignElement _ _ _ _ _ hx
  | giveBack _ _ hx
  | argument hx | testIf hx | testLoop hx => simp [hx]
  | _ => cases he

/-! ## Functions of a tree -/

/-- The names and the results of the functions, in the order of their definition. -/
def results (c : Compiler) : List (Scope × Option Kind) :=
  c.functions.map fun f => (f.name, f.result)

end Compiler

/-- The name and the result of the function that an event defines. -/
def Event.result? : Event → Option (Scope × Option Kind)
  | .defineFunction result name => some (some name, result.map Kind.value)
  | _ => none

namespace Compiler

variable {c' : Compiler} {es : List Event}

theorem results_eq (c : Compiler) : c.results = c.outcomes.map fun o => (o.1, o.2.1) := by
  rw [results, outcomes, List.map_map]
  rfl

theorem Acts.results (ha : Acts e c c') : c'.results = c.results ++ e.result?.toList := by
  rw [results_eq, results_eq]
  by_cases hdefine : ∃ result name, e = .defineFunction result name
  · obtain ⟨result, name, rfl⟩ := hdefine
    cases ha with
    | defineFunction => simp [outcomes_define, Event.result?]
  have hnone : e.result? = none := by
    cases e with
    | defineFunction result name => exact absurd ⟨result, name, rfl⟩ hdefine
    | _ => rfl
  rw [hnone, Option.toList_none, List.append_nil]
  by_cases hreturn : e = .giveBack
  · subst hreturn
    cases ha with
    | @giveBack _ x rest =>
      rw [completeAll_eq]
      refine (congrArg (List.map _) (outcomes_return { c with operands := rest } x.place)).trans ?_
      rw [List.map_map]
      refine List.map_congr_left fun o _ => ?_
      simp only [Function.comp_apply]
      split <;> rfl
  · rw [ha.outcomes (fun result name he => hdefine ⟨result, name, he⟩) hreturn]

theorem RunsBy.results (hr : Runs es c c') :
    c'.results = c.results ++ es.filterMap Event.result? := by
  induction hr with
  | nil => simp
  | @cons e es _ _ _ ha _ ih =>
    rw [ih, ha.results, List.append_assoc]
    cases h : e.result? <;> simp [h]

theorem isVoid_eq_results (name : String) :
    c.isVoid name = (c.results.find? (·.1 == some name)).any fun r => r.2.isNone := by
  rw [isVoid, function?, Compiler.results, List.find?_map, Option.any_map]
  rfl

end Compiler

/-- Functions that do not give a result. -/
def Tree.isVoid (p : Tree) (name : String) : Bool :=
  (p.functions.find? (·.name == name)).any fun f => f.result.isNone

theorem Tree.results (p : Tree) :
    p.events.filterMap Event.result? = p.functions.map fun f =>
      (some f.name, f.result.map Kind.value) := by
  rw [p.filterMap_events, ← List.filterMap_eq_map]
  · rfl
  · intro e he
    cases e <;> first | rfl | cases he

namespace Compiler

variable {p : Tree}

/-- A function that is known when it is called is known with its result. -/
theorem isVoid_eq {name : String} (hr : Runs xs {} c) (hp : p.events = xs ++ ys)
    (hknown : (c.function? (some name)).isSome = true) : c.isVoid name = p.isVoid name := by
  have hresults : c.results = (none, none) :: xs.filterMap Event.result? := hr.results
  have hall : (none, none) :: (p.functions.map fun f => (some f.name, f.result.map Kind.value)) =
      c.results ++ ys.filterMap Event.result? := by
    rw [hresults, ← p.results, hp, List.filterMap_append, List.cons_append]
  have hfound : (c.results.find? (·.1 == some name)).isSome = true := by
    rw [Compiler.results, List.find?_map, Option.isSome_map]
    exact hknown
  obtain ⟨r, hr⟩ := Option.isSome_iff_exists.1 hfound
  have htree : (p.functions.map fun f => (some f.name, f.result.map Kind.value)).find?
      (·.1 == some name) = some r := by
    have hfind := congrArg (List.find? (·.1 == some name)) hall
    rwa [List.find?_append, hr, Option.some_or, List.find?_cons_of_neg (by simp)] at hfind
  rw [isVoid_eq_results, hr, Tree.isVoid, ← htree, List.find?_map, Option.any_map]
  simp [Function.comp_def]

/-- The height of the stack after some events of a tree. -/
theorem height_eq (hr : Runs xs {} c) (hp : p.events = xs ++ ys) :
    c.height = Event.gainOf p.isVoid xs := by
  induction xs using List.reverseRecOn generalizing c ys with
  | nil =>
    obtain rfl := runs_nil.1 hr
    rfl
  | append_singleton xs e ih =>
    obtain ⟨d, hd, he⟩ := runs_append.1 hr
    have ha := runs_singleton.1 he
    rw [List.append_assoc, List.singleton_append] at hp
    have hready := ready hd hp
    have hgain : e.gain d.isVoid = e.gain p.isVoid := by
      cases e with
      | endCall name =>
        obtain ⟨_, -, hknown⟩ := hready.called name rfl
        simp only [Event.gain, isVoid_eq hd hp hknown]
      | _ => rfl
    have hcall : ∀ name, e = .endCall name → ∃ rest, d.called = some name :: rest := by
      intro name hname
      obtain ⟨rest, hrest, -⟩ := hready.called name hname
      exact ⟨rest, hrest⟩
    rw [ha.height hcall hready.special, ih hd hp, hgain, Event.gainOf_append, Event.gainOf,
      Event.gainOf, Int.add_zero]

end Compiler

/-! ## What statements need and leave -/

/-- How a statement uses the stack: it needs the value of an expression, or it leaves an operand
that nothing takes. -/
inductive Traffic
  | needs (e : Expr)
  | leaves

namespace Traffic

/-- The calls without a result that stand where a value is needed. -/
def voids (void : String → Bool) : List Traffic → Nat
  | [] => 0
  | .needs e :: ts => e.voids void + voids void ts
  | .leaves :: ts => voids void ts

/-- The operands that are left. -/
def left : List Traffic → Nat
  | [] => 0
  | .needs _ :: ts => left ts
  | .leaves :: ts => left ts + 1

def balance (void : String → Bool) (ts : List Traffic) : Int :=
  left ts - voids void ts

theorem voids_append (void : String → Bool) (xs ys : List Traffic) :
    voids void (xs ++ ys) = voids void xs + voids void ys := by
  induction xs with
  | nil => simp [voids]
  | cons t xs ih => cases t <;> simp [voids, ih, Nat.add_assoc]

theorem left_append (xs ys : List Traffic) : left (xs ++ ys) = left xs + left ys := by
  induction xs with
  | nil => simp [left]
  | cons t xs ih => cases t <;> simp [left, ih, Nat.add_right_comm]

theorem balance_append (void : String → Bool) (xs ys : List Traffic) :
    balance void (xs ++ ys) = balance void xs + balance void ys := by
  rw [balance, balance, balance, left_append, voids_append]
  omega

/-- A call as a statement leaves its result. -/
def ofCall (isVoid : Bool) : List Traffic :=
  if isVoid then [] else [.leaves]

end Traffic

def Args.traffic : Args → List Traffic
  | nil => []
  | cons e rest => .needs e :: rest.traffic

def Target.traffic : Target → List Traffic
  | .variable _ => []
  | .element _ index => [.needs index]

mutual

/-- The traffic of a statement in the order of the source. -/
def Stmt.traffic (void : String → Bool) : Stmt → List Traffic
  | .call name args => args.traffic ++ Traffic.ofCall (void name)
  | .special name args => args.traffic ++ Traffic.ofCall (Special.isVoid name)
  | .assign t e => t.traffic ++ [.needs e]
  | .update _ t => t.traffic ++ [.leaves]
  | .giveBack e => [.needs e]
  | .leave => []
  | .branch condition body rest => .needs condition :: (body.traffic void ++ rest.traffic void)
  | .loop condition body => .needs condition :: body.traffic void

def Block.traffic (void : String → Bool) : Block → List Traffic
  | .nil => []
  | .cons s rest => s.traffic void ++ rest.traffic void

def Branches.traffic (void : String → Bool) : Branches → List Traffic
  | .done => []
  | .otherwise body more => body.traffic void ++ more.traffic void
  | .elseif condition body rest more =>
    .needs condition :: (body.traffic void ++ (rest.traffic void ++ more.traffic void))

def Extra.traffic (void : String → Bool) : Extra → List Traffic
  | .none => []
  | .otherwise body => body.traffic void
  | .elseif condition body rest => .needs condition :: (body.traffic void ++ rest.traffic void)

end

/-- The traffic of a program: the functions in their order and then the main part. -/
def Tree.traffic (p : Tree) : List Traffic :=
  p.functions.flatMap (fun f => f.body.traffic p.isVoid) ++ p.main.traffic p.isVoid

/-! ## Events of statements -/

open Event

variable {void : String → Bool}

mutual

theorem Expr.gainOf_events : ∀ e : Expr, gainOf void e.events = 1 - e.voids void
  | .literal _ _ => rfl
  | .reference t => t.gainOf_events
  | .apply o e => by
    rw [Expr.events, gainOf_append, e.gainOf_events]
    exact Int.add_zero _
  | .update u t => by
    rw [Expr.events, gainOf_append, t.gainOf_events]
    exact Int.add_zero _
  | .chain first o second rest => by
    simp only [Expr.events, gainOf_append, first.gainOf_events, second.gainOf_events,
      rest.gainOf_operands, rest.gainOf_operators, gainOf, gain, Expr.voids]
    omega
  | .power base exponent => by
    simp only [Expr.events, gainOf_append, base.gainOf_events, exponent.gainOf_events, gainOf, gain,
      Expr.voids]
    omega
  | .call name args => by
    simp only [Expr.events, gainOf_append, List.cons_append, args.gainOf_operands, gainOf_arguments,
      gainOf, gain, Expr.voids]
    cases void name <;> simp <;> omega
  | .special name args => by
    simp only [Expr.events, gainOf_append, List.cons_append, args.gainOf_operands, gainOf_arguments,
      gainOf, gain, Expr.voids]
    cases Special.isVoid name <;> simp <;> omega

theorem Target.gainOf_events : ∀ t : Target, gainOf void t.events = 1 - t.voids void
  | .variable _ => rfl
  | .element _ index => by
    rw [Target.events, gainOf_append, index.gainOf_events]
    exact Int.add_zero _

theorem Links.gainOf_operands : ∀ l : Links, gainOf void l.operands = l.ops.length - l.voids void
  | .nil => rfl
  | .cons _ e rest => by
    simp only [Links.operands, gainOf_append, e.gainOf_events, rest.gainOf_operands, Links.ops,
      List.length_cons, Links.voids]
    omega

theorem Links.gainOf_operators : ∀ l : Links, gainOf void l.operators = -l.ops.length
  | .nil => rfl
  | .cons _ _ rest => by
    simp only [Links.operators, gainOf_append, rest.gainOf_operators, gainOf, gain, Links.ops,
      List.length_cons]
    omega

theorem Args.gainOf_operands : ∀ a : Args, gainOf void a.operands = a.length - a.voids void
  | .nil => rfl
  | .cons e rest => by
    simp only [Args.operands, gainOf_append, e.gainOf_events, rest.gainOf_operands, Args.length,
      Args.voids]
    omega

end

namespace Event

/-- The events have this traffic. Wherever a value is needed, it is taken when no operators are
noted, and then the stack is at most as high as the traffic so far allows. -/
structure Carries (void : String → Bool) (es : List Event) (ts : List Traffic) : Prop where
  ends : es.foldl note [] = []
  gain : gainOf void es = Traffic.balance void ts
  taken : ∀ before e after, ts = before ++ .needs e :: after → ∃ xs k ys, es = xs ++ k :: ys ∧
    k.takes = true ∧
    xs.foldl note [] = [] ∧ gainOf void xs ≤ Traffic.balance void (before ++ [.needs e]) + 1

variable {es : List Event} {ts us : List Traffic} {k : Event}

/-- Events without traffic. -/
theorem carries_nothing (hends : es.foldl note [] = []) (hgain : gainOf void es = 0) :
    Carries void es [] where
  ends := hends
  gain := hgain
  taken _ _ _ h := by simp at h

theorem carries_nil : Carries void [] [] :=
  carries_nothing rfl rfl

theorem carries_singleton (hnote : e.isPlain = true) (hgain : e.gain void = 0) :
    Carries void [e] [] :=
  carries_nothing (folded_singleton hnote).ends (by rw [gainOf, gainOf, hgain]; rfl)

theorem Carries.append (hx : Carries void xs ts) (hy : Carries void ys us) :
    Carries void (xs ++ ys) (ts ++ us) where
  ends := by rw [List.foldl_append, hx.ends, hy.ends]
  gain := by rw [gainOf_append, hx.gain, hy.gain, Traffic.balance_append]
  taken before e after h := by
    rcases split_append h with ⟨vs, hts, -⟩ | ⟨vs, rfl, hus⟩
    · obtain ⟨zs, k, rest, rfl, htaken⟩ := hx.taken before e vs hts
      exact ⟨zs, k, rest ++ ys, by simp, htaken⟩
    · obtain ⟨zs, k, rest, rfl, hk, hnoted, hgain⟩ := hy.taken vs e after hus
      refine ⟨xs ++ zs, k, rest, by simp, hk, by rw [List.foldl_append, hx.ends, hnoted], ?_⟩
      rw [gainOf_append, hx.gain, List.append_assoc, Traffic.balance_append]
      omega

theorem Carries.cons (h : Carries void es ts) (hnote : e.isPlain = true) (hgain : e.gain void = 0) :
    Carries void (e :: es) ts :=
  (carries_singleton hnote hgain).append h

theorem Carries.snoc (h : Carries void es ts) (hnote : e.isPlain = true) (hgain : e.gain void = 0) :
    Carries void (es ++ [e]) ts := by
  simpa using h.append (carries_singleton hnote hgain)

/-- An operand that is left. -/
theorem carries_leaves (hends : es.foldl note [] = []) (hgain : gainOf void es = 1) :
    Carries void es [.leaves] where
  ends := hends
  gain := hgain
  taken before e after h := by simp [List.cons_eq_append_iff] at h

/-- Values that one event takes when all of them are on the stack, before operands may be left. -/
theorem carries_of_taken (ts us : List Traffic) (hsplit : es = xs ++ k :: ys) (hk : k.takes = true)
    (hnoted : xs.foldl note [] = []) (hends : es.foldl note [] = [])
    (hgain : gainOf void es = Traffic.balance void (ts ++ us))
    (hlow : gainOf void xs ≤ Traffic.balance void ts + 1) (hleft : Traffic.left ts = 0)
    (hneeds : ∀ e, .needs e ∉ us) : Carries void es (ts ++ us) where
  ends := hends
  gain := hgain
  taken before e after h := by
    refine ⟨xs, k, ys, hsplit, hk, hnoted, ?_⟩
    rcases split_append h with ⟨vs, rfl, -⟩ | ⟨vs, -, rfl⟩
    · rw [← List.singleton_append, ← List.append_assoc, Traffic.left_append] at hleft
      rw [← List.singleton_append, ← List.append_assoc, Traffic.balance_append,
        Traffic.balance.eq_1 void vs] at hlow
      omega
    · exact absurd (List.mem_append_right _ List.mem_cons_self) (hneeds e)

/-- An expression whose value is taken. -/
theorem carries_needs (e : Expr) (hnote : k.isPlain = true) (hgain : k.gain void = -1)
    (hk : k.takes = true) : Carries void (e.events ++ [k]) [.needs e] := by
  have hbalance : Traffic.balance void [.needs e] = -e.voids void := by
    simp [Traffic.balance, Traffic.left, Traffic.voids]
  refine carries_of_taken [.needs e] [] rfl hk e.folded.ends (e.folded.snoc hnote).ends ?_
    ?_ rfl (by simp)
  · rw [List.append_nil, gainOf_append, e.gainOf_events, gainOf, gainOf, hgain, hbalance]
    omega
  · rw [e.gainOf_events, hbalance]
    omega

theorem Carries.needs (h : Carries void es ts) (e : Expr) (hnote : k.isPlain = true)
    (hgain : k.gain void = -1) (hk : k.takes = true) :
    Carries void (e.events ++ k :: es) (.needs e :: ts) := by
  simpa using (carries_needs e hnote hgain hk).append h

end Event

theorem Args.left_traffic : ∀ a : Args, Traffic.left a.traffic = 0
  | .nil => rfl
  | .cons _ rest => rest.left_traffic

theorem Args.voids_traffic : ∀ a : Args, Traffic.voids void a.traffic = a.voids void
  | .nil => rfl
  | .cons e rest => by rw [Args.traffic, Traffic.voids, rest.voids_traffic, Args.voids]

theorem Args.balance_traffic (a : Args) : Traffic.balance void a.traffic = -a.voids void := by
  rw [Traffic.balance, a.left_traffic, a.voids_traffic]
  omega

/-- Arguments are taken when all of them are on the stack. -/
theorem Args.carries (a : Args) :
    Carries void (a.operands ++ List.replicate a.length .argument) a.traffic := by
  have hends : ∀ n, (a.operands ++ List.replicate n Event.argument).foldl note [] = [] := by
    intro n
    rw [List.foldl_append, a.folded.ends]
    exact foldl_note (fun _ h => List.eq_of_mem_replicate h ▸ rfl) []
  rcases Nat.eq_zero_or_pos a.length with hzero | hpos
  · cases a with
    | nil => exact carries_nil
    | cons => cases hzero
  · obtain ⟨n, hn⟩ := Nat.exists_eq_succ_of_ne_zero (Nat.ne_of_gt hpos)
    have hsplit : a.operands ++ List.replicate a.length .argument =
        (a.operands ++ List.replicate n .argument) ++ .argument :: [] := by
      rw [hn, List.replicate_succ', List.append_assoc]
    rw [← List.append_nil a.traffic]
    refine carries_of_taken a.traffic [] hsplit rfl (hends n) (hends _) ?_ ?_ a.left_traffic
      (by simp)
    · rw [List.append_nil, gainOf_append, gainOf_arguments, a.gainOf_operands, a.balance_traffic]
      omega
    · rw [gainOf_append, gainOf_arguments, a.gainOf_operands, a.balance_traffic, hn]
      omega

/-- A call as a statement. -/
theorem Args.carries_call (a : Args) {first last : Event} {isVoid : Bool}
    (hfirst : first.isPlain = true) (hgain : first.gain void = 0) (hlast : last.isPlain = true)
    (hresult : last.gain void = if isVoid then 0 else 1) :
    Carries void (first :: (a.operands ++ List.replicate a.length .argument) ++ [last])
      (a.traffic ++ Traffic.ofCall isVoid) := by
  refine (a.carries.cons hfirst hgain).append ?_
  cases isVoid with
  | true => exact carries_singleton hlast hresult
  | false => exact carries_leaves (folded_singleton hlast).ends (by simp [gainOf, hresult])

/-- An update as a statement. -/
theorem Target.carries_update (t : Target) (o : UnOp) :
    Carries void (t.events ++ [.unary o]) (t.traffic ++ [.leaves]) := by
  have hends : (t.events ++ [Event.unary o]).foldl note [] = [] := (t.folded.snoc rfl).ends
  have hgain : gainOf void (t.events ++ [.unary o]) = 1 - t.voids void := by
    rw [gainOf_append, t.gainOf_events]
    exact Int.add_zero _
  cases t with
  | «variable» => exact carries_leaves hends hgain
  | element name index =>
    have hsplit : (Target.element name index).events ++ [.unary o] =
        index.events ++ .useElement name :: [.unary o] := by
      rw [Target.events, List.append_assoc]
      rfl
    refine carries_of_taken [.needs index] [.leaves] hsplit rfl index.folded.ends hends ?_
      ?_ rfl (by simp)
    · rw [hgain]
      simp [Traffic.balance, Traffic.left, Traffic.voids, Target.voids]
    · rw [index.gainOf_events]
      simp [Traffic.balance, Traffic.left, Traffic.voids]

mutual

theorem Stmt.carries : ∀ s : Stmt, Carries void s.events (s.traffic void)
  | .call _ args => args.carries_call rfl rfl rfl rfl
  | .special _ args => args.carries_call rfl rfl rfl rfl
  | .assign (.variable _) e => carries_needs e rfl rfl rfl
  | .assign (.element _ index) e => (carries_needs e rfl rfl rfl).needs index rfl rfl rfl
  | .update u t => t.carries_update u.op
  | .giveBack e => carries_needs e rfl rfl rfl
  | .leave => carries_singleton rfl rfl
  | .branch condition body rest => (body.carries.append rest.carries).needs condition rfl rfl rfl
  | .loop condition body =>
    have hbody : Carries void (body.events ++ [.closeLoop, .leaveLoop]) (body.traffic void) := by
      simpa using (body.carries.snoc (e := .closeLoop) rfl rfl).snoc (e := .leaveLoop) rfl rfl
    (hbody.needs condition rfl rfl rfl).cons rfl rfl

theorem Block.carries : ∀ b : Block, Carries void b.events (b.traffic void)
  | .nil => carries_nil
  | .cons s rest => s.carries.append rest.carries

theorem Branches.carries : ∀ b : Branches, Carries void b.events (b.traffic void)
  | .done => carries_singleton rfl rfl
  | .otherwise body more => (body.carries.append (more.carries.cons rfl rfl)).cons rfl rfl
  | .elseif condition body rest more =>
    ((body.carries.append (rest.carries.append (more.carries.cons rfl rfl))).needs condition rfl rfl
      rfl).cons rfl rfl

theorem Extra.carries : ∀ x : Extra, Carries void x.events (x.traffic void)
  | .none => carries_nil
  | .otherwise body => (body.carries.snoc rfl rfl).cons rfl rfl
  | .elseif condition body rest =>
    ((body.carries.append (rest.carries.snoc rfl rfl)).needs condition rfl rfl rfl).cons rfl rfl

end

/-- Sizes are read and dropped. -/
theorem carries_sizesOf (gs : List Group) : Carries void (sizesOf gs) [] := by
  have hnames : ∀ ns, Carries void (Group.sizes ns) [] := by
    intro ns
    induction ns with
    | nil => exact carries_nil
    | cons n ns ih =>
      obtain ⟨name, _ | n⟩ := n
      · exact ih
      · have hsize : Carries void [.constant .int (.int n), .dropSize] [] := carries_nothing rfl rfl
        exact hsize.append ih
  induction gs with
  | nil => exact carries_nil
  | cons g gs ih => exact (hnames g.names).append ih

theorem FunctionTree.carries (fs : List FunctionTree) :
    Carries void (fs.flatMap FunctionTree.events) (fs.flatMap fun f => f.body.traffic void) := by
  induction fs with
  | nil => exact carries_nil
  | cons f fs ih =>
    have hinner : Carries void (innerEvents f.params f.vars f.body) (f.body.traffic void) :=
      (carries_sizesOf f.vars).append ((f.body.carries.snoc rfl rfl).cons rfl rfl)
    exact (hinner.cons rfl rfl).append ih

theorem Tree.carries (p : Tree) : Carries p.isVoid p.events p.traffic := by
  have hmain : Carries p.isVoid (.enterMain :: (p.main.events ++ [.finish]))
      (p.main.traffic p.isVoid) :=
    (p.main.carries.snoc rfl rfl).cons rfl rfl
  exact (carries_sizesOf p.globals).append
    (((FunctionTree.carries p.functions).append hmain).cons rfl rfl)

/-! ## Compiled programs -/

open Compiler

/-- When no operators are noted, the operands are counted by the events before. -/
theorem Compiler.RunsBy.length_operands {p : Tree} (hr : Runs xs {} c) (hp : p.events = xs ++ ys)
    (hnoted : xs.foldl note [] = []) : (c.operands.length : Int) = gainOf p.isVoid xs := by
  have hchained : c.chained = [] := hr.chained.trans hnoted
  rw [← height_eq hr hp, height, hchained]
  exact (Int.sub_zero _).symm

theorem Compiled.void_value_rejected {line : Nat} {source : String} {p : Tree}
    (hp : p.events = (Trace.ofSource line source).events) :
    (∀ before e after, p.traffic = before ++ .needs e :: after →
      Traffic.left before < Traffic.voids p.isVoid (before ++ [.needs e]) →
        (ofSource line source).rejection ≠ none) ∧
    ((ofSource line source).rejection = none →
      (ofSource line source).state.operands.length + Traffic.voids p.isVoid p.traffic =
        Traffic.left p.traffic) := by
  have hcarries := p.carries
  refine ⟨fun before e after hsplit hover haccepted => ?_, fun haccepted => ?_⟩
  · obtain ⟨q, hq, hruns⟩ := Compiled.exists_runs haccepted
    rw [hq, ← hp] at hruns
    obtain ⟨xs, k, ys, hevents, hk, hnoted, hgain⟩ := hcarries.taken before e after hsplit
    rw [hevents] at hruns
    obtain ⟨c, hxs, hrest⟩ := runs_append.1 hruns
    obtain ⟨c', ha, -⟩ := runs_cons.1 hrest
    have hlength := hxs.length_operands hevents hnoted
    have hpos := List.length_pos_iff.2 (ha.operands_ne_nil hk)
    rw [Traffic.balance, Traffic.left_append] at hgain
    simp only [Traffic.left] at hgain
    omega
  · obtain ⟨q, hq, hruns⟩ := Compiled.exists_runs haccepted
    rw [hq, ← hp] at hruns
    have hlength := hruns.length_operands (List.append_nil _).symm hcarries.ends
    rw [hcarries.gain, Traffic.balance] at hlength
    omega

theorem isWord_v : IsWord "v" := by
  refine ⟨by simp, fun c hc => ?_⟩
  obtain rfl : c = 'v' := by simpa using hc
  rfl

/-- One operand is left, and two calls without a result stand where a value is needed. -/
theorem Compiled.void_value_rejected_twice :
    let source := "program p; int x; fun void v() { } ++x; x = v() + v();"
    let p : Tree := ⟨[⟨.int, [("x", none)]⟩], [⟨none, "v", [], [], .nil, isWord_v⟩],
      .cons (.update .increment (.variable "x"))
        (.cons (.assign (.variable "x") (.chain (.call "v" .nil) .add (.call "v" .nil) .nil)) .nil)⟩
    p.events = (Trace.ofSource 1 source).events ∧
      p.traffic = [.leaves] ++ .needs (.chain (.call "v" .nil) .add (.call "v" .nil) .nil) :: [] ∧
      Traffic.voids p.isVoid p.traffic = 2 ∧ (ofSource 1 source).rejection ≠ none := by
  intro source p
  have hevents : p.events = (Trace.ofSource 1 source).events := by
    decide +kernel
  have hvoids : Traffic.voids p.isVoid p.traffic = 2 := by decide +kernel
  refine ⟨hevents, rfl, hvoids, (void_value_rejected hevents).1 [.leaves] _ [] rfl ?_⟩
  exact hvoids ▸ Nat.one_lt_two

end Symphony
