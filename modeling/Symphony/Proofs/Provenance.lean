import Symphony.Proofs.Parsing

/-!
# Where events come from

Most events say nothing about the token that brings them about, or only repeat a name. Literals,
operators of chains, powers and calls of special functions do: `Token.Brings` says which tokens
bring them about.

**Theorem (`Trace.forall_events`).** What holds of the events that the tokens of a source bring
about, and of all events that depend on no token, holds of all its events.

It is followed from the tokens to the events by one lemma for the answer of a goal to a token
(`Goal.holds_reactTo`): a goal holds events for later, and the goals in its place hold those of the
token.
-/

namespace Symphony

/-- The value of a literal, with its type. -/
def Token.literal? : Token → Option (Ty × Value)
  | intVal n => some (.int, .int n)
  | decVal x => some (.dec, .dec x)
  | charVal c => some (.char, .str (String.singleton c))
  | strVal s => some (.str, .str s)
  | boolVal b => some (.bool, .bool b)
  | _ => none

/-- Events that only certain tokens bring about. -/
def Event.isMarked : Event → Bool
  | .constant _ _ | .power | .chain _ | .fold _ | .beginSpecial _ | .endSpecial _ => true
  | _ => false

/-- A token brings about a marked event. -/
def Token.Brings (t : Token) : Event → Prop
  | .constant ty v => t.literal? = some (ty, v)
  | .power => t.isPower = true
  | .chain o | .fold o => ∃ l : Level, l.operator? t = some o
  | .beginSpecial name | .endSpecial name => t = .special name
  | _ => False

/-- The event that a goal holds for later. -/
def Goal.Holds (P : Event → Prop) : Goal → Prop
  | .act e | .actIf _ e => P e
  | _ => True

def Reaction.Holds (P : Event → Prop) : Reaction → Prop
  | .shift es gs => (∀ e ∈ es, P e) ∧ ∀ g ∈ gs, g.Holds P
  | .done es => ∀ e ∈ es, P e
  | .reject => True

variable {P : Event → Prop}

namespace Goal

theorem holds_doneIf {f : Follow} {t : Option Token} {es : List Event} (h : ∀ e ∈ es, P e) :
    (doneIf f t es).Holds P := by
  unfold doneIf
  split
  · exact h
  · trivial

theorem holds_shiftIf {gs : Option (List Goal)} (h : ∀ hs, gs = some hs → ∀ g ∈ hs, g.Holds P) :
    (shiftIf gs).Holds P := by
  unfold shiftIf
  split
  case h_1 hs => exact ⟨List.forall_mem_nil _, h hs rfl⟩
  case h_2 => trivial

variable {t : Token} {gs : List Goal}

section

variable (hfree : ∀ e : Event, e.isMarked = false → P e) (ht : ∀ e, t.Brings e → P e)

include hfree in
theorem holds_updateRest (o : UnOp) : ∀ g ∈ updateRest o, g.Holds P := by
  simp only [updateRest, List.forall_mem_cons, Holds, List.not_mem_nil]
  exact ⟨trivial, hfree _ rfl, fun _ h => h.elim⟩

include ht in
theorem holds_specialCall {name : String} (hname : t = .special name) :
    ∀ g ∈ specialCall name, g.Holds P := by
  have hbegin : P (.beginSpecial name) := ht _ hname
  have hend : P (.endSpecial name) := ht _ hname
  simp [specialCall, callRest, sym, Holds, hbegin, hend]

include hfree ht in
theorem holds_afterFactor (h : afterFactor t = some gs) : ∀ g ∈ gs, g.Holds P := by
  cases t with
  | symbol s =>
    cases s <;> cases h
    · exact holds_updateRest hfree _
    · exact holds_updateRest hfree _
    · simp [Holds, sym]
  | keyword k => cases h
  | ident name =>
    cases h
    simp [Holds]
  | special name =>
    cases h
    exact holds_specialCall ht rfl
  | _ =>
    cases h
    exact List.forall_mem_singleton.2 (ht (.constant _ _) rfl)

include hfree ht in
theorem holds_afterOperand {l : Level} (h : afterOperand l t = some gs) : ∀ g ∈ gs, g.Holds P := by
  have hwith : ∀ tails : List Goal, (∀ g ∈ tails, g.Holds P) →
      (if t = .keyword .not then some (factor :: actIf .product (.unary .not) :: tails)
        else (afterFactor t).map fun goals => goals ++ tail .product :: tails) = some gs →
      ∀ g ∈ gs, g.Holds P := by
    intro tails htails h
    split at h
    · obtain rfl := Option.some.inj h
      exact List.forall_mem_cons.2 ⟨trivial, List.forall_mem_cons.2 ⟨hfree _ rfl, htails⟩⟩
    · obtain ⟨hs, hhs, rfl⟩ := Option.map_eq_some_iff.1 h
      exact List.forall_mem_append.2
        ⟨holds_afterFactor hfree ht hhs, List.forall_mem_cons.2 ⟨trivial, htails⟩⟩
  cases l with
  | product => exact holds_afterFactor hfree ht h
  | sum => exact hwith [] (List.forall_mem_nil _) h
  | relation => exact hwith [tail .sum] (by simp [Holds]) h
  | logic => exact hwith [tail .sum, tail .relation] (by simp [Holds]) h

include hfree ht in
theorem holds_afterUnsigned (h : afterUnsigned t = some gs) : ∀ g ∈ gs, g.Holds P := by
  obtain ⟨hs, hhs, rfl⟩ := Option.map_eq_some_iff.1 h
  exact List.forall_mem_append.2 ⟨holds_afterOperand hfree ht hhs, by simp [Holds]⟩

include hfree ht in
theorem holds_afterExpression (h : afterExpression t = some gs) : ∀ g ∈ gs, g.Holds P := by
  unfold afterExpression at h
  split at h
  · cases h
    simpa [Holds] using hfree _ rfl
  · obtain ⟨hs, hhs, rfl⟩ := Option.map_eq_some_iff.1 h
    exact List.forall_mem_append.2 ⟨holds_afterUnsigned hfree ht hhs, by simp [Holds]⟩

include hfree ht in
theorem holds_afterStatement (h : afterStatement t = some gs) : ∀ g ∈ gs, g.Holds P := by
  cases t with
  | symbol s =>
    cases s <;> cases h
    · exact List.forall_mem_append.2 ⟨holds_updateRest hfree _, by simp [sym, Holds]⟩
    · exact List.forall_mem_append.2 ⟨holds_updateRest hfree _, by simp [sym, Holds]⟩
  | keyword k =>
    cases k <;> cases h <;> simp [Holds, sym, ifGoals, whileGoals, conditionGoals, blockGoals] <;>
      and_intros <;> exact hfree _ rfl
  | ident name =>
    cases h
    simp [Holds, sym]
  | special name =>
    cases h
    exact List.forall_mem_append.2 ⟨holds_specialCall ht rfl, by simp [sym, Holds]⟩
  | _ => cases h

theorem holds_afterName {site : Site} {vars names : List Declaration} {ty : Ty} :
    (afterName site vars ty names t).Holds P := by
  unfold afterName
  split <;> simp [Reaction.Holds, Holds]

theorem isMarked_event (site : Site) (vars : List Declaration) :
    (site.event vars).isMarked = false := by
  cases site <;> rfl

include hfree ht in
/-- The answer of a goal to a token holds only events that the token brings about. -/
theorem holds_reactTo {g : Goal} (hg : g.Holds P) : (g.reactTo t).Holds P := by
  cases g with
  | act e => exact List.forall_mem_singleton.2 hg
  | actIf f e => exact holds_doneIf (List.forall_mem_singleton.2 hg)
  | check f => exact holds_doneIf (List.forall_mem_nil _)
  | declarations site vars =>
    simp only [reactTo]
    split
    · simp [Reaction.Holds, Holds]
    · exact holds_doneIf (List.forall_mem_singleton.2 (hfree _ (isMarked_event site vars)))
  | declared site vars ty names name =>
    simp only [reactTo]
    split
    · simp [Reaction.Holds, Holds]
    · exact holds_afterName
  | arraySize =>
    cases t <;> try trivial
    have hsize := ht (.constant _ _) rfl
    simpa [reactTo, Reaction.Holds, Holds, hsize, sym] using hfree _ rfl
  | moreNames => exact holds_afterName
  | statements f =>
    simp only [reactTo]
    split
    case h_1 gs hgs =>
      exact ⟨List.forall_mem_nil _,
        List.forall_mem_append.2 ⟨holds_afterStatement hfree ht hgs, by simp [Holds]⟩⟩
    case h_2 => exact holds_doneIf (List.forall_mem_nil _)
  | functions =>
    simp only [reactTo]
    split
    · simp [Reaction.Holds, Holds]
    · exact holds_doneIf (List.forall_mem_nil _)
  | branches =>
    simp only [reactTo]
    split
    · simp [Reaction.Holds, Holds, elseGoals, blockGoals, sym]
      and_intros <;> exact hfree _ rfl
    · simp [Reaction.Holds, Holds, elseifGoals, conditionGoals, blockGoals, sym]
      and_intros <;> exact hfree _ rfl
    · exact holds_doneIf (List.forall_mem_singleton.2 (hfree _ rfl))
  | moreBranches =>
    simp only [reactTo]
    split
    · simp [Reaction.Holds, Holds, elseGoals, blockGoals, sym]
      and_intros <;> exact hfree _ rfl
    · simp [Reaction.Holds, Holds, elseifGoals, conditionGoals, blockGoals, sym]
      and_intros <;> exact hfree _ rfl
    · exact holds_doneIf (List.forall_mem_nil _)
  | expression => exact holds_shiftIf fun _ => holds_afterExpression hfree ht
  | unsigned => exact holds_shiftIf fun _ => holds_afterUnsigned hfree ht
  | operandOf l => exact holds_shiftIf fun _ => holds_afterOperand hfree ht
  | factor => exact holds_shiftIf fun _ => holds_afterFactor hfree ht
  | tail l | chain l =>
    simp only [reactTo]
    split
    case h_1 o ho =>
      -- Both events of an operator come from the token that spells it.
      have hchain : P (.chain o) := ht _ ⟨l, ho⟩
      have hfold : P (.fold o) := ht _ ⟨l, ho⟩
      simp [Reaction.Holds, Holds, hchain, hfold]
    case h_2 => exact holds_doneIf (List.forall_mem_nil _)
  | powerTail =>
    simp only [reactTo]
    split
    case isTrue hpower =>
      have hpower : P .power := ht _ hpower
      simp [Reaction.Holds, Holds, hpower]
    case isFalse => exact holds_doneIf (List.forall_mem_nil _)
  | reference name callable =>
    simp only [reactTo]
    split
    · simpa [Reaction.Holds, Holds, sym] using hfree _ rfl
    · split
      · simp [Reaction.Holds, Holds, callRest, sym]
        and_intros <;> exact hfree _ rfl
      · trivial
    · exact holds_doneIf (List.forall_mem_singleton.2 (hfree _ rfl))
  | arguments =>
    simp only [reactTo]
    split
    · exact List.forall_mem_nil _
    · refine holds_shiftIf fun gs hgs => ?_
      obtain ⟨hs, hhs, rfl⟩ := Option.map_eq_some_iff.1 hgs
      exact List.forall_mem_append.2 ⟨holds_afterExpression hfree ht hhs, by simp [Holds]⟩
  | _ =>
    simp only [reactTo]
    split <;> simp [Reaction.Holds, Holds, bodyGoals, callRest, sym] <;>
      and_intros <;> exact hfree _ rfl

include hfree in
theorem holds_reactToEnd {g : Goal} (hg : g.Holds P) : g.reactToEnd.Holds P := by
  cases g with
  | act e => exact List.forall_mem_singleton.2 hg
  | actIf f e => exact holds_doneIf (List.forall_mem_singleton.2 hg)
  | declarations site vars =>
    exact holds_doneIf (List.forall_mem_singleton.2 (hfree _ (isMarked_event site vars)))
  | branches => exact holds_doneIf (List.forall_mem_singleton.2 (hfree _ rfl))
  | check | functions | statements | moreBranches => exact holds_doneIf (List.forall_mem_nil _)
  | _ => trivial

end

end Goal

/-! ## Traces -/

namespace Trace

variable {gs : List Goal}

theorem holds_release (h : ∀ g ∈ gs, g.Holds P) :
    (∀ e ∈ (release gs).1, P e) ∧ ∀ g ∈ (release gs).2, g.Holds P := by
  fun_induction release gs with
  | case1 e goals events rest heq ih =>
    obtain ⟨hfirst, hrest⟩ := List.forall_mem_cons.1 h
    rw [heq] at ih
    exact ⟨List.forall_mem_cons.2 ⟨hfirst, (ih hrest).1⟩, (ih hrest).2⟩
  | case2 goals => exact ⟨List.forall_mem_nil _, h⟩

section

variable (hfree : ∀ e : Event, e.isMarked = false → P e)

include hfree in
theorem holds_take {t : Token} (ht : ∀ e, t.Brings e → P e) (h : ∀ g ∈ gs, g.Holds P) :
    (∀ e ∈ (take t gs).1, P e) ∧ ∀ hs, (take t gs).2 = some hs → ∀ g ∈ hs, g.Holds P := by
  induction gs with
  | nil => exact ⟨List.forall_mem_nil _, fun _ h => by cases h⟩
  | cons g gs ih =>
    obtain ⟨hfirst, hrest⟩ := List.forall_mem_cons.1 h
    have hreact := Goal.holds_reactTo hfree ht hfirst
    rw [take]
    split
    case h_1 es push heq =>
      rw [heq] at hreact
      refine ⟨hreact.1, ?_⟩
      rintro hs ⟨⟩
      exact List.forall_mem_append.2 ⟨hreact.2, hrest⟩
    case h_2 es heq =>
      rw [heq] at hreact
      exact ⟨List.forall_mem_append.2 ⟨hreact, (ih hrest).1⟩, (ih hrest).2⟩
    case h_3 => exact ⟨List.forall_mem_nil _, by simp⟩

include hfree in
theorem holds_close (h : ∀ g ∈ gs, g.Holds P) : ∀ e ∈ (close gs).1, P e := by
  induction gs with
  | nil => exact List.forall_mem_nil _
  | cons g gs ih =>
    obtain ⟨hfirst, hrest⟩ := List.forall_mem_cons.1 h
    have hreact := Goal.holds_reactToEnd hfree hfirst
    rw [close]
    split
    case h_1 es heq =>
      rw [heq] at hreact
      exact List.forall_mem_append.2 ⟨hreact, ih hrest⟩
    case h_2 => exact List.forall_mem_nil _

include hfree in
theorem holds_ofGoals {stop : Stop} {last line : Nat} {ls : List Lexeme}
    (hls : ∀ l ∈ ls, ∀ e, l.token.Brings e → P e) (h : ∀ g ∈ gs, g.Holds P) :
    ∀ e ∈ (ofGoals stop last gs line ls).events, P e := by
  induction ls generalizing gs line with
  | nil =>
    obtain ⟨hearly, hgoals⟩ := holds_release h
    unfold ofGoals
    simp only [events_prepend]
    refine List.forall_mem_append.2 ⟨hearly, ?_⟩
    cases stop with
    | finished =>
      simp only [events_prepend]
      exact List.forall_mem_append.2 ⟨holds_close hfree hgoals, by simp [events]⟩
    | illegal c => simp [events]
    | overlong => simp [events]
  | cons l ls ih =>
    obtain ⟨hfirst, hrest⟩ := List.forall_mem_cons.1 hls
    obtain ⟨hearly, hgoals⟩ := holds_release h
    obtain ⟨htaken, hnext⟩ := holds_take hfree hfirst hgoals
    unfold ofGoals
    simp only [events_prepend]
    refine List.forall_mem_append.2 ⟨hearly, List.forall_mem_append.2 ⟨htaken, ?_⟩⟩
    split
    case h_1 gs' hgs' => exact ih hrest (hnext gs' hgs')
    case h_2 => simp [events]

include hfree in
/-- What holds of all events that depend on no token, and of those that the tokens of a source bring
about, holds of all its events. -/
theorem forall_events {line : Nat} {source : String}
    (h : ∀ l ∈ (Lexemes.scan line source).list, ∀ e, l.token.Brings e → P e) :
    ∀ e ∈ (ofSource line source).events, P e :=
  holds_ofGoals hfree h (by
    simp [Goal.programGoals, Goal.Holds, Goal.sym]
    exact ⟨hfree _ rfl, hfree _ rfl⟩)

end

end Trace

end Symphony
