import Symphony.Proofs.Growth
import Symphony.Proofs.Regions

/-!
# Calls in expressions

While the arguments of a call are read, other calls may begin and end. A call that has begun is due
to end, and calls end in the reverse order (`Event.nest`).

**Theorem (`Tree.nested`).** In the events of a tree every end of a call is that of the call begun
last, and every call ends.

Hence the function that the compiler enters at the end of a call is the one that is written there
(`RunsBy.called`).
-/

namespace Symphony

variable {e : Event} {due due' es : List Event} {isGlobal : Bool}

namespace Event

/-- The ends of calls that are due after an event. An end that is not due first is an error. -/
def nest (due : List Event) : Event → Option (List Event)
  | .beginCall name => some (.endCall name :: due)
  | .beginSpecial name => some (.endSpecial name :: due)
  | .endCall name => if due.head? = some (.endCall name) then some due.tail else none
  | .endSpecial name => if due.head? = some (.endSpecial name) then some due.tail else none
  | _ => some due

/-- In these events calls end in the reverse order, and all of them end. -/
def Nested (es : List Event) : Prop :=
  ∀ due, es.foldlM nest due = some due

/-- No call begins or ends at these events. -/
def isCall : Event → Bool
  | .beginCall _ | .beginSpecial _ | .endCall _ | .endSpecial _ => true
  | _ => false

theorem nest_of_not_isCall (h : e.isCall = false) (due : List Event) : nest due e = some due := by
  cases e <;> first | rfl | cases h

theorem nested_nil : Nested [] := fun _ => rfl

theorem Nested.append {xs ys : List Event} (hx : Nested xs) (hy : Nested ys) :
    Nested (xs ++ ys) := by
  intro due
  rw [List.foldlM_append, hx due]
  exact hy due

theorem Nested.cons {e : Event} {es : List Event} (he : e.isCall = false) (h : Nested es) :
    Nested (e :: es) := by
  intro due
  rw [List.foldlM_cons, nest_of_not_isCall he]
  exact h due

theorem nested_of_forall (h : ∀ e ∈ es, e.isCall = false) : Nested es := by
  induction es with
  | nil => exact nested_nil
  | cons e es ih => exact .cons (h e (by simp)) (ih fun e he => h e (by simp [he]))

theorem nested_singleton (he : e.isCall = false) : Nested [e] :=
  .cons he nested_nil

theorem Nested.arguments (h : Nested es) (n : Nat) : Nested (es ++ List.replicate n .argument) :=
  h.append (nested_of_forall fun e he => by rw [List.eq_of_mem_replicate he]; rfl)

/-- What stands between the beginning and the end of a call. -/
theorem Nested.enclose {b : Event} (h : Nested es) (hb : ∀ due, nest due b = some (e :: due))
    (he : ∀ due, nest (e :: due) e = some due) : Nested (b :: es ++ [e]) := by
  intro due
  rw [List.foldlM_append, List.foldlM_cons, hb]
  show (es.foldlM nest (e :: due)).bind ([e].foldlM nest) = _
  rw [h (e :: due)]
  show (nest (e :: due) e).bind some = _
  rw [he]
  rfl

end Event

open Event

/-! ## Trees -/

theorem Links.nested_operators (l : Links) : Nested l.operators := by
  cases l with
  | nil => exact nested_nil
  | cons _ _ rest => exact rest.nested_operators.append (nested_singleton rfl)

theorem composes_nested : Expr.Composes Nested where
  nil := nested_nil
  append := .append
  single e he := nested_singleton (by cases e <;> first | rfl | cases he)
  sign _ := nested_singleton rfl
  update _ _ h := h.append (nested_singleton rfl)
  chain l _ := l.nested_operators.append (nested_singleton rfl)
  call _ n _ h := (h.arguments n).enclose (fun _ => rfl) fun _ => if_pos rfl
  special _ n _ h := (h.arguments n).enclose (fun _ => rfl) fun _ => if_pos rfl

theorem Expr.nested (e : Expr) : Nested e.events :=
  e.composed composes_nested

theorem Args.nested (a : Args) : Nested a.operands :=
  a.composed composes_nested

theorem nested_sizesOf (gs : List Group) : Nested (sizesOf gs) := by
  refine nested_of_forall fun e he => ?_
  obtain ⟨g, -, hg⟩ := List.mem_flatMap.1 he
  rcases Compiler.mem_sizes hg with rfl | ⟨t, v, rfl⟩ <;> rfl

theorem Tree.nested (p : Tree) : Nested p.events :=
  p.composed
    { nil := nested_nil
      append := .append
      expr := Expr.nested
      single := fun e he => nested_singleton (by cases e <;> first | rfl | cases he)
      loop := fun condition _ h =>
        .cons rfl (condition.nested.append
          (.cons rfl (h.append (.cons rfl (nested_singleton rfl))))) }
    nested_sizesOf fun e he => nested_singleton (by cases e <;> first | rfl | cases he)

/-! ## The compiler -/

/-- The function whose call ends. -/
def Event.callee : Event → Scope
  | .endCall name | .endSpecial name => some name
  | _ => none

namespace Compiler

variable {c c' : Compiler}

theorem DeclaresStep.called {d : Declaration} (h : DeclaresStep isGlobal d c c') :
    c'.called = c.called := by
  cases h with
  | one h => cases h <;> rfl
  | kind | address => rfl

/-- Only calls change what is called. -/
theorem Acts.called_of_not_isCall (ha : Acts e c c') (he : e.isCall = false) :
    c'.called = c.called := by
  cases ha with
  | declareGlobals hv => exact hv.keeps (fun _ _ _ _ hs h => hs.called.trans h) rfl
  | declareLocals hp hv =>
    exact hv.keeps (fun _ _ _ _ hs h => hs.called.trans h)
      (hp.keeps (fun _ _ _ _ hs h => hs.called.trans h) rfl)
  | power _ hop =>
    cases hop
    rfl
  | fold _ hfold => exact (congrArg Compiler.called hfold.rest_eq :)
  | giveBack | closeLoop =>
    rw [completeAll_eq]
    rfl
  | beginCall | beginSpecial | callVoid | callKnown | callSelf | specialVoid | specialValue =>
    cases he
  | _ => rfl

theorem tail_of_called {name : Scope} {rest : List Scope} (h : c.called = due.map Event.callee)
    (hcalled : c.called = name :: rest)
    (hnest : (if due.head? = some e then some due.tail else none) = some due') :
    rest = due'.map Event.callee := by
  split at hnest
  · cases hnest
    rw [List.map_tail, ← h, hcalled]
    rfl
  · cases hnest

/-- The functions being called are those whose calls are due to end. -/
theorem Acts.called (ha : Acts e c c') (h : c.called = due.map Event.callee)
    (hnest : e.nest due = some due') : c'.called = due'.map Event.callee := by
  by_cases he : e.isCall = false
  · rw [Event.nest_of_not_isCall he] at hnest
    cases hnest
    rw [ha.called_of_not_isCall he, h]
  · cases ha with
    | beginCall | beginSpecial =>
      cases hnest
      exact congrArg _ h
    | callVoid hcalled | callKnown hcalled | callSelf hcalled | specialVoid hcalled
    | specialValue hcalled => exact tail_of_called h hcalled hnest
    | _ => exact absurd rfl he

/-- The same for a run over events. -/
theorem RunsBy.called (hr : Runs es c c') (h : c.called = due.map Event.callee)
    (hnest : es.foldlM Event.nest due = some due') : c'.called = due'.map Event.callee := by
  induction hr generalizing due with
  | nil =>
    cases hnest
    exact h
  | cons ha _ ih =>
    rw [List.foldlM_cons] at hnest
    obtain ⟨due₁, h₁, h₂⟩ := Option.bind_eq_some_iff.1 hnest
    exact ih (Acts.called ha h h₁) h₂

end Compiler

end Symphony
