import Symphony.Proofs.Acceptance
import Symphony.Proofs.Rejections
import Symphony.Proofs.Stacks

/-!
# Branches after a last branch

The grammar lets one more branch follow each branch of a conditional, so it derives conditionals in
which a last branch, without a condition, is not the last. Such a branch takes a jump that is not
its own.

**Theorem (`Compiled.stray_branches`).** No source with such a conditional compiles, whatever is
around it. In a source that the grammar derives and that has none, a jump is there whenever the
compiler takes one.

The branch is found on the stack of goals. After a last branch only the goal `moreBranches` can take
another one (`takesExtra_of_block`), and if that goal takes a branch, a last branch with its block
has just been read (`Traced.block`). Counting what each goal will do to the number of jumps that
wait (`Goal.weight`), a branch that `moreBranches` takes leaves one too few.
-/

namespace Symphony

open Nonterminal Language Event

variable {next : Option Token → Prop} {p : Tree} {line : Nat}

/-- A word in which another branch follows a last branch with its block. -/
def Stray (w : List Terminal) : Prop :=
  ∃ u b t v, w = u ++ .keyword .else_ :: (b ++ t :: v) ∧ b ∈ wordsOf block ∧
    (t = .keyword .else_ ∨ t = .keyword .elseif)

theorem stray_of_block {b : List Terminal} {t : Terminal} (hb : b ∈ wordsOf block)
    (ht : t = .keyword .else_ ∨ t = .keyword .elseif) (u v : List Terminal) :
    Stray (u ++ .keyword .else_ :: (b ++ t :: v)) :=
  ⟨u, b, t, v, rfl, hb, ht⟩

/-- Two elements of a list: one of them comes first, or they are the same. -/
theorem split_cases {α : Type} {a b : α} {xs xs' ys ys' : List α}
    (h : xs ++ a :: xs' = ys ++ b :: ys') :
    (∃ zs, xs = ys ++ b :: zs ∧ ys' = zs ++ a :: xs') ∨ (xs = ys ∧ a = b ∧ xs' = ys') ∨
      ∃ zs, ys = xs ++ a :: zs ∧ xs' = zs ++ b :: ys' := by
  induction xs generalizing ys with
  | nil =>
    cases ys with
    | nil => simp_all
    | cons y ys => simp_all
  | cons x xs ih =>
    cases ys with
    | nil => simp_all
    | cons y ys =>
      obtain ⟨rfl, htail⟩ := List.cons.inj h
      rcases ih htail with ⟨zs, rfl, rfl⟩ | ⟨rfl, rfl, rfl⟩ | ⟨zs, rfl, rfl⟩
      · exact .inl ⟨zs, rfl, rfl⟩
      · exact .inr (.inl ⟨rfl, rfl, rfl⟩)
      · exact .inr (.inr ⟨zs, rfl, rfl⟩)

namespace Goal

variable {t : Token} {ts us : List Token} {g : Goal} {gs hs as bs push : List Goal}
  {es : List Event}

/-! ## One token -/

/-- A token passes goals that are done without it. -/
def Passes (t : Token) (gs : List Goal) : Prop :=
  ∀ g ∈ gs, ∃ es, g.reactTo t = .done es

theorem Passes.nil_mem (h : Passes t gs) : [] ∈ stackWords gs := by
  induction gs with
  | nil => exact nil_mem_one
  | cons g gs ih =>
    obtain ⟨⟨es, hg⟩, hgs⟩ := List.forall_mem_cons.1 h
    rw [stackWords_cons, nil_mem_mul]
    exact ⟨(nil_mem_words g).2 (nullable_of_done hg), ih hgs⟩

theorem take_of_passes (has : Passes t as) (hg : g.reactTo t = .shift es push) :
    (Trace.take t (as ++ g :: bs)).2 = some (push ++ bs) := by
  induction as with
  | nil => simp [Trace.take, hg]
  | cons a as ih =>
    obtain ⟨xs, ha⟩ := has a List.mem_cons_self
    simp only [List.cons_append, Trace.take, ha]
    exact ih fun g hg => has g (List.mem_cons_of_mem _ hg)

/-- A token that is taken passes some goals, and the next one takes it. -/
theorem exists_of_take (h : (Trace.take t gs).2 = some hs) :
    ∃ as g bs es push, gs = as ++ g :: bs ∧ Passes t as ∧ g.reactTo t = .shift es push ∧
      hs = push ++ bs := by
  induction gs with
  | nil => cases h
  | cons g gs ih =>
    cases hreact : g.reactTo t with
    | shift es push =>
      simp only [Trace.take, hreact, Option.some.injEq] at h
      exact ⟨[], g, gs, es, push, rfl, List.forall_mem_nil _, hreact, h.symm⟩
    | done es =>
      simp only [Trace.take, hreact] at h
      obtain ⟨as, g', bs, es', push, rfl, has, hg', rfl⟩ := ih h
      exact ⟨g :: as, g', bs, es', push, rfl, List.forall_mem_cons.2 ⟨⟨es, hreact⟩, has⟩, hg', rfl⟩
    | reject => simp [Trace.take, hreact] at h

/-- What the goals below do not see. -/
theorem take_append (h : (Trace.take t gs).2 = some hs) (bs : List Goal) :
    (Trace.take t (gs ++ bs)).2 = some (hs ++ bs) := by
  obtain ⟨as, g, bs', es, push, rfl, has, hg, rfl⟩ := exists_of_take h
  rw [List.append_assoc, List.cons_append, take_of_passes has hg, List.append_assoc]

/-- Whether a token is taken by the goal for one more branch. -/
def takesExtra (t : Token) : List Goal → Bool
  | [] => false
  | g :: gs =>
    match g.reactTo t with
    | .shift _ _ => g == moreBranches
    | .done _ => takesExtra t gs
    | .reject => false

theorem takesExtra_of_passes (has : Passes t as) (hg : g.reactTo t = .shift es push) :
    takesExtra t (as ++ g :: bs) = (g == moreBranches) := by
  induction as with
  | nil => simp [takesExtra, hg]
  | cons a as ih =>
    obtain ⟨xs, ha⟩ := has a List.mem_cons_self
    simp only [List.cons_append, takesExtra, ha]
    exact ih fun g hg => has g (List.mem_cons_of_mem _ hg)

/-! ## Jumps that goals add -/

/-- By how much a goal, and those that take its place, will change the number of jumps that wait, if
no branch follows a last branch. -/
def weight : Goal → Int
  | act e | actIf _ e => e.balance
  | branches => -1
  | _ => 0

def weightOf : List Goal → Int
  | [] => 0
  | g :: gs => g.weight + weightOf gs

@[simp] theorem weightOf_nil : weightOf [] = 0 := rfl

@[simp] theorem weightOf_cons (g : Goal) (gs : List Goal) :
    weightOf (g :: gs) = g.weight + weightOf gs := rfl

@[simp] theorem weightOf_append (gs hs : List Goal) :
    weightOf (gs ++ hs) = weightOf gs + weightOf hs := by
  induction gs with
  | nil => simp
  | cons g gs ih =>
    rw [List.cons_append, weightOf_cons, weightOf_cons, ih]
    omega

/-- Goals that add no jumps and do not allow one more branch. -/
structure Light (gs : List Goal) : Prop where
  weight : weightOf gs = 0
  notMem : moreBranches ∉ gs

theorem Light.append (hgs : Light gs) (hhs : Light hs) : Light (gs ++ hs) :=
  ⟨by rw [weightOf_append, hgs.weight, hhs.weight]; rfl, by simp [hgs.notMem, hhs.notMem]⟩

theorem light_updateRest (o : UnOp) : Light (updateRest o) :=
  ⟨rfl, by simp [updateRest]⟩

theorem light_callRest {e : Event} (he : e.balance = 0) : Light (callRest e) :=
  ⟨by simp [callRest, sym, weight, he], by simp [callRest, sym]⟩

theorem light_specialCall (name : String) : Light (specialCall name) :=
  ⟨rfl, by simp [specialCall, callRest, sym]⟩

theorem light_afterFactor (h : afterFactor t = some gs) : Light gs := by
  cases t with
  | intVal | decVal | charVal | strVal | boolVal | ident =>
    cases h
    exact ⟨rfl, by simp⟩
  | special =>
    cases h
    exact light_specialCall _
  | keyword => cases h
  | symbol s =>
    cases s <;> cases h
    · exact light_updateRest _
    · exact light_updateRest _
    · exact ⟨rfl, by simp [sym]⟩

theorem light_afterOperand {l : Level} (h : afterOperand l t = some gs) : Light gs := by
  have hproduct : ∀ tails : List Goal, Light tails →
      (if t = .keyword .not then some (factor :: actIf .product (.unary .not) :: tails)
        else (afterFactor t).map (· ++ tail .product :: tails)) = some gs → Light gs := by
    intro tails htails h
    split at h
    · cases h
      have hnegation : Light [factor, actIf .product (.unary .not)] := ⟨rfl, by simp⟩
      exact hnegation.append htails
    · obtain ⟨hs, hhs, rfl⟩ := Option.map_eq_some_iff.1 h
      have htail : Light [tail .product] := ⟨rfl, by simp⟩
      exact (light_afterFactor hhs).append (htail.append htails)
  cases l with
  | product => exact light_afterFactor h
  | sum => exact hproduct [] ⟨rfl, by simp⟩ h
  | relation => exact hproduct [tail .sum] ⟨rfl, by simp⟩ h
  | logic => exact hproduct [tail .sum, tail .relation] ⟨rfl, by simp⟩ h

theorem light_afterUnsigned (h : afterUnsigned t = some gs) : Light gs := by
  obtain ⟨hs, hhs, rfl⟩ := Option.map_eq_some_iff.1 h
  exact (light_afterOperand hhs).append ⟨rfl, by simp⟩

theorem light_afterExpression (h : afterExpression t = some gs) : Light gs := by
  unfold afterExpression at h
  split at h
  · cases h
    exact ⟨rfl, by simp⟩
  · obtain ⟨hs, hhs, rfl⟩ := Option.map_eq_some_iff.1 h
    exact (light_afterUnsigned hhs).append ⟨rfl, by simp⟩

theorem light_afterStatement (h : afterStatement t = some gs) : Light gs := by
  cases t with
  | symbol s =>
    cases s <;> cases h
    · exact (light_updateRest _).append ⟨rfl, by simp [sym]⟩
    · exact (light_updateRest _).append ⟨rfl, by simp [sym]⟩
  | keyword k =>
    cases k <;> cases h
    · exact ⟨rfl, by simp [ifGoals, conditionGoals, blockGoals, sym]⟩
    · exact ⟨rfl, by simp [whileGoals, conditionGoals, blockGoals, sym]⟩
    · exact ⟨rfl, by simp [sym]⟩
    · exact ⟨rfl, by simp [sym]⟩
  | ident name =>
    cases h
    exact ⟨rfl, by simp [sym]⟩
  | special name =>
    cases h
    exact (light_specialCall name).append ⟨rfl, by simp [sym]⟩
  | _ => cases h

/-- A goal that is done has done what it was to do. -/
theorem balance_of_done (h : g.reactTo t = .done es) : balanceOf es = g.weight := by
  have hdoneIf : ∀ {f : Follow} {xs : List Event}, doneIf f (some t) xs = .done es →
      balanceOf xs = g.weight → balanceOf es = g.weight := by
    intro f xs h hxs
    rwa [doneIf_eq_done h]
  cases g with
  | act =>
    cases h
    simp [weight]
  | actIf => exact hdoneIf h (by simp [weight])
  | check => exact hdoneIf h rfl
  | declarations site =>
    simp only [reactTo] at h
    split at h
    · cases h
    · exact hdoneIf h (by cases site <;> rfl)
  | functions | branches | moreBranches | tail | chain =>
    simp only [reactTo] at h
    split at h <;> first | exact hdoneIf h rfl | cases h
  | statements =>
    simp only [reactTo] at h
    split at h
    · cases h
    · exact hdoneIf h rfl
  | powerTail =>
    simp only [reactTo] at h
    split at h
    · cases h
    · exact hdoneIf h rfl
  | reference =>
    simp only [reactTo] at h
    split at h
    · cases h
    · split at h <;> cases h
    · exact hdoneIf h rfl
  | arguments =>
    simp only [reactTo] at h
    split at h
    · cases h
      rfl
    · exact absurd h shiftIf_ne_done
  | moreArguments =>
    simp only [reactTo] at h
    split at h <;> cases h
    rfl
  | expression | unsigned | operandOf | factor => exact absurd h shiftIf_ne_done
  | expect =>
    simp only [reactTo] at h
    split at h <;> cases h
  | _ =>
    simp only [reactTo, afterName] at h
    repeat' split at h
    all_goals cases h

/-- The goals that take the place of a goal do what it was to do, and only `branches` allows one
more branch. -/
theorem balance_of_shift (hg : g ≠ moreBranches) (h : g.reactTo t = .shift es push) :
    balanceOf es + weightOf push = g.weight ∧ (moreBranches ∈ push → g = branches) := by
  -- Most goals are replaced by light ones, which weigh nothing and allow no further branch.
  have hlight : ∀ {xs : List Event}, balanceOf xs = 0 → Light push → g.weight = 0 →
      balanceOf xs + weightOf push = g.weight ∧ (moreBranches ∈ push → g = branches) := by
    intro xs hxs hpush hweight
    rw [hxs, hpush.weight, hweight]
    exact ⟨rfl, fun hmem => absurd hmem hpush.notMem⟩
  have hshiftIf : ∀ {gs : Option (List Goal)}, shiftIf gs = .shift es push →
      (gs = some push → Light push) →
      g.weight = 0 → balanceOf es + weightOf push = g.weight ∧
        (moreBranches ∈ push → g = branches) := by
    intro gs h hpush hweight
    obtain ⟨rfl, hsome⟩ := shiftIf_eq_shift h
    exact hlight rfl (hpush hsome) hweight
  cases g with
  | branches =>
    simp only [reactTo] at h
    split at h
    · cases h
      exact ⟨rfl, fun _ => rfl⟩
    · cases h
      exact ⟨rfl, fun _ => rfl⟩
    · exact absurd h doneIf_ne_shift
  | moreBranches => exact absurd rfl hg
  | act => cases h
  | actIf | check => exact absurd h doneIf_ne_shift
  | statements f =>
    simp only [reactTo] at h
    split at h
    · rename_i hgoals
      cases h
      exact hlight rfl ((light_afterStatement hgoals).append ⟨rfl, by simp⟩) rfl
    · exact absurd h doneIf_ne_shift
  | expression => exact hshiftIf h light_afterExpression rfl
  | unsigned => exact hshiftIf h light_afterUnsigned rfl
  | operandOf l => exact hshiftIf h light_afterOperand rfl
  | factor => exact hshiftIf h light_afterFactor rfl
  | arguments =>
    simp only [reactTo] at h
    split at h
    · cases h
    · refine hshiftIf h (fun hsome => ?_) rfl
      obtain ⟨hs, hhs, rfl⟩ := Option.map_eq_some_iff.1 hsome
      exact (light_afterExpression hhs).append ⟨rfl, by simp⟩
  | nameStatement | reference =>
    simp only [reactTo] at h
    repeat' split at h
    all_goals first
      | cases h; exact hlight rfl (light_callRest rfl) rfl
      | cases h; exact hlight rfl ⟨rfl, by simp [sym]⟩ rfl
      | exact absurd h doneIf_ne_shift
      | cases h
  | _ =>
    simp only [reactTo, afterName] at h
    repeat' split at h
    all_goals first
      | cases h; exact hlight rfl ⟨rfl, by simp [sym, bodyGoals]⟩ rfl
      | exact absurd h doneIf_ne_shift
      | cases h

theorem balance_of_shift_moreBranches (h : moreBranches.reactTo t = .shift es push) :
    balanceOf es + weightOf push + 1 = moreBranches.weight := by
  simp only [reactTo] at h
  split at h
  · cases h
    rfl
  · cases h
    rfl
  · exact absurd h doneIf_ne_shift

theorem balance_of_done_end (h : g.reactToEnd = .done es) : balanceOf es = g.weight := by
  cases g with
  | act =>
    cases h
    simp [weight]
  | actIf =>
    rw [doneIf_eq_done h]
    simp [weight]
  | declarations site =>
    rw [doneIf_eq_done h]
    cases site <;> rfl
  | check | functions | statements | branches | moreBranches =>
    rw [doneIf_eq_done h]
    rfl
  | _ => cases h

/-! ## Runs -/

/-- A branch that the goal for one more branch takes leaves one jump too few. -/
theorem balance_take (h : (Trace.take t gs).2 = some hs) :
    balanceOf (Trace.take t gs).1 + weightOf hs + (if takesExtra t gs then 1 else 0) =
      weightOf gs := by
  induction gs with
  | nil => cases h
  | cons g gs ih =>
    cases hreact : g.reactTo t with
    | shift es push =>
      simp only [Trace.take, hreact, Option.some.injEq] at h
      simp only [Trace.take, takesExtra, hreact, ← h, weightOf_append, weightOf_cons, beq_iff_eq]
      split
      case isTrue hg =>
        subst hg
        have hbalance := balance_of_shift_moreBranches hreact
        omega
      case isFalse hg =>
        have hbalance := (balance_of_shift hg hreact).1
        omega
    | done es =>
      simp only [Trace.take, hreact] at h
      simp only [Trace.take, takesExtra, hreact, balanceOf_append, weightOf_cons]
      have hbalance := balance_of_done hreact
      have hrest := ih h
      omega
    | reject => simp [Trace.take, hreact] at h

theorem balance_release (gs : List Goal) :
    balanceOf (Trace.release gs).1 + weightOf (Trace.release gs).2 = weightOf gs := by
  induction gs with
  | nil => rfl
  | cons g gs ih =>
    cases g with
    | act e =>
      simp only [Trace.release, balanceOf_cons, weightOf_cons, weight]
      omega
    | _ => simp [Trace.release]

/-- Events that happen before a token is looked at make no difference to what takes it. -/
theorem take_release (t : Token) (gs : List Goal) :
    (Trace.take t (Trace.release gs).2).2 = (Trace.take t gs).2 ∧
      takesExtra t (Trace.release gs).2 = takesExtra t gs := by
  induction gs with
  | nil => exact ⟨rfl, rfl⟩
  | cons g gs ih =>
    cases g with
    | act e => exact ih
    | _ => exact ⟨rfl, rfl⟩

theorem balance_close (h : (Trace.close gs).2 = true) :
    balanceOf (Trace.close gs).1 = weightOf gs := by
  induction gs with
  | nil => rfl
  | cons g gs ih =>
    cases hreact : g.reactToEnd with
    | done es =>
      simp only [Trace.close, hreact] at h
      simp only [Trace.close, hreact, balanceOf_append, weightOf_cons]
      rw [balance_of_done_end hreact, ih h]
    | _ => simp [Trace.close, hreact] at h

/-- How many tokens the goal for one more branch takes. -/
def surplus : List Token → List Goal → Nat
  | [], _ => 0
  | t :: ts, gs =>
    (if takesExtra t gs then 1 else 0) +
      match (Trace.take t gs).2 with
      | some hs => surplus ts hs
      | none => 0

/-- The stack of goals after some tokens. -/
def after : List Token → List Goal → Option (List Goal)
  | [], gs => some gs
  | t :: ts, gs => (Trace.take t gs).2.bind (after ts)

theorem balance_ofGoals {stop : Stop} {last : Nat} {ls : List Lexeme}
    (h : (Trace.ofGoals stop last gs line ls).ending = .accepted) :
    balanceOf (Trace.ofGoals stop last gs line ls).events + surplus (ls.map Lexeme.token) gs =
      weightOf gs := by
  induction ls generalizing gs line with
  | nil =>
    have hrelease := balance_release gs
    cases stop with
    | finished =>
      simp only [Trace.ofGoals, Trace.prepend] at h
      split at h
      case isFalse => cases h
      case isTrue hclose =>
        have hbalance := balance_close hclose
        simp only [Trace.ofGoals, Trace.prepend, Trace.events, surplus, List.map_append,
          List.map_map, List.map_nil, List.append_nil, balanceOf_append, Function.comp_def,
          List.map_id']
        omega
    | _ => cases h
  | cons l ls ih =>
    have hrelease := balance_release gs
    obtain ⟨htake, hextra⟩ := take_release l.token gs
    simp only [Trace.ofGoals, Trace.prepend] at h
    cases hresult : (Trace.take l.token (Trace.release gs).2).2 with
    | none =>
      rw [hresult] at h
      cases h
    | some hs =>
      rw [hresult] at h
      have hrest := ih h
      have hbalance := balance_take hresult
      simp only [Trace.ofGoals, Trace.prepend, Trace.events, List.map_append, List.map_map,
        List.map_cons, balanceOf_append, Function.comp_def, List.map_id', surplus, ← htake,
        ← hextra, hresult] at hrest ⊢
      push_cast
      omega

theorem after_append (ts us : List Token) (gs : List Goal) :
    after (ts ++ us) gs = (after ts gs).bind (after us) := by
  induction ts generalizing gs with
  | nil => rfl
  | cons t ts ih =>
    rw [List.cons_append, after, after, Option.bind_assoc]
    exact congrArg _ (funext ih)

theorem after_append_goals (h : after ts gs = some hs) (bs : List Goal) :
    after ts (gs ++ bs) = some (hs ++ bs) := by
  induction ts generalizing gs with
  | nil =>
    cases h
    rfl
  | cons t ts ih =>
    obtain ⟨gs', htake, hrest⟩ := Option.bind_eq_some_iff.1 h
    rw [after, take_append htake bs]
    exact ih hrest

theorem surplus_append (h : after ts gs = some hs) (us : List Token) :
    surplus (ts ++ us) gs = surplus ts gs + surplus us hs := by
  induction ts generalizing gs with
  | nil =>
    cases h
    simp [surplus]
  | cons t ts ih =>
    obtain ⟨gs', htake, hrest⟩ := Option.bind_eq_some_iff.1 h
    simp only [List.cons_append, surplus, htake, ih hrest, Nat.add_assoc]

theorem Fits.after (hf : Fits next gs) (h : after ts gs = some hs) : Fits next hs := by
  induction ts generalizing gs with
  | nil =>
    cases h
    exact hf
  | cons t ts ih =>
    obtain ⟨gs', htake, hrest⟩ := Option.bind_eq_some_iff.1 h
    exact ih (hf.take htake) hrest

/-- A stack of goals takes tokens exactly if they begin one of its words. -/
theorem append_mem_stackWords (hf : Fits next gs) {w : List Terminal} :
    ts.map Token.terminal ++ w ∈ stackWords gs ↔ ∃ hs, after ts gs = some hs ∧
      w ∈ stackWords hs := by
  induction ts generalizing gs with
  | nil => simp [after]
  | cons t ts ih =>
    rw [List.map_cons, List.cons_append, cons_mem_stackWords hf]
    constructor
    · rintro ⟨gs', htake, hw⟩
      obtain ⟨hs, hafter, hw⟩ := (ih (hf.take htake)).1 hw
      exact ⟨hs, by rw [after, htake]; exact hafter, hw⟩
    · rintro ⟨hs, hafter, hw⟩
      obtain ⟨gs', htake, hrest⟩ := Option.bind_eq_some_iff.1 hafter
      exact ⟨gs', htake, (ih (hf.take htake)).2 ⟨hs, hrest, hw⟩⟩

/-! ## A branch after a last branch is taken as one more -/

/-- Goals that take no token. -/
def Idle (gs : List Goal) : Prop :=
  ∀ g ∈ gs, ∀ t, ¬g.Shifts t

theorem Idle.take_eq_none (h : Idle gs) (t : Token) : (Trace.take t gs).2 = none := by
  cases htake : (Trace.take t gs).2 with
  | none => rfl
  | some hs =>
    obtain ⟨as, g, bs, es, push, rfl, -, hg, -⟩ := exists_of_take htake
    exact absurd ⟨es, push, hg⟩ (h g (by simp) t)

/-- Above goals that take no token, an expected token is still expected, or all above has been
taken. -/
theorem after_expect {u : Token} (gs : List Goal) (hbs : Idle bs)
    (h : after ts (gs ++ expect u :: bs) = some hs) :
    (∃ gs', hs = gs' ++ expect u :: bs) ∨ hs = bs := by
  induction ts generalizing gs with
  | nil =>
    cases h
    exact .inl ⟨gs, rfl⟩
  | cons t ts ih =>
    obtain ⟨gs', htake, hrest⟩ := Option.bind_eq_some_iff.1 h
    obtain ⟨as, g, cs, es, push, hsplit, -, hg, rfl⟩ := exists_of_take htake
    rcases split_cases hsplit with ⟨xs, rfl, rfl⟩ | ⟨rfl, rfl, rfl⟩ | ⟨xs, rfl, rfl⟩
    · rw [← List.append_assoc] at hrest
      exact ih _ hrest
    · have hpush : push = [] := by
        simp only [reactTo] at hg
        split at hg <;> cases hg
        rfl
      rw [hpush, List.nil_append] at hrest
      cases ts with
      | nil =>
        cases hrest
        exact .inr rfl
      | cons t' ts =>
        rw [after, hbs.take_eq_none] at hrest
        cases hrest
    · exact absurd ⟨es, push, hg⟩ (hbs g (by simp) t)

theorem Fits.isProper (hf : Fits next gs) (hg : g ∈ gs) : g.IsProper := by
  induction gs with
  | nil => cases hg
  | cons g' gs ih =>
    rcases List.mem_cons.1 hg with rfl | hg
    · exact hf.1
    · exact ih hf.2.2 hg

/-- After the block of a last branch, only its end is left. -/
theorem after_elseGoals {w : List Token} (hw : w.map Token.terminal ∈ wordsOf block) :
    after w elseGoals = some [check .block, actIf .block .closeIf] := by
  rw [← stackWords_elseGoals, ← List.append_nil (w.map _), append_mem_stackWords fits_elseGoals]
    at hw
  obtain ⟨hs, hafter, hnil⟩ := hw
  have hidle : Idle [check .block, actIf .block .closeIf] := by simp [Idle]
  rcases after_expect [act .elseBranch, sym .lbrace, statements .blockEnd] hidle
    hafter with ⟨gs', rfl⟩ | rfl
  · -- the closing brace has been taken
    rw [stackWords_append, stackWords_cons, nil_mem_mul, nil_mem_mul] at hnil
    exact absurd hnil.2.1 nil_notMem_singleton
  · exact hafter

/-- After a last branch and its block, another branch is taken as one more. -/
theorem takesExtra_of_block (ht : t = .keyword .else_ ∨ t = .keyword .elseif) (bs : List Goal) :
    takesExtra t ([check .block, actIf .block .closeIf] ++ moreBranches :: bs) = true := by
  obtain ⟨push, -, hmore, -⟩ := exists_branch ht
  have hpasses : Passes t [check .block, actIf .block .closeIf] := by
    obtain rfl | rfl := ht <;> simp [Passes, reactTo, doneIf, Follow.allows]
  rw [takesExtra_of_passes hpasses hmore]
  rfl

theorem surplus_pos_of_takesExtra (h : takesExtra t gs = true) (ts : List Token) :
    0 < surplus (t :: ts) gs := by
  rw [surplus, if_pos h]
  omega

/-- Where a last branch is followed by another one, the goal for one more branch takes a token. -/
theorem surplus_pos_of_stray (hf : Fits next gs) {w : List Token}
    (hw : w.map Token.terminal ∈ wordsOf block) (ht : t = .keyword .else_ ∨ t = .keyword .elseif)
    (h : (us ++ .keyword .else_ :: (w ++ t :: ts)).map Token.terminal ∈ stackWords gs) :
    0 < surplus (us ++ .keyword .else_ :: (w ++ t :: ts)) gs := by
  rw [List.map_append, append_mem_stackWords hf] at h
  obtain ⟨hs₁, hus, h⟩ := h
  have hf₁ := hf.after hus
  rw [List.map_cons, cons_mem_stackWords hf₁] at h
  obtain ⟨hs₂, htake, -⟩ := h
  obtain ⟨as, g, bs, es, push, rfl, has, hg, rfl⟩ := exists_of_take htake
  rw [surplus_append hus]
  -- the last branch belongs to the branches of its conditional, or is one more itself
  obtain rfl | rfl := eq_branches_of_shifts (hf₁.isProper (by simp)) (.inl rfl) ⟨es, push, hg⟩
  · cases hg
    have hafter := after_append_goals (after_elseGoals hw) (moreBranches :: bs)
    have hpos := surplus_pos_of_takesExtra (takesExtra_of_block ht bs) ts
    rw [surplus, htake, List.append_assoc, List.singleton_append]
    simp only [surplus_append hafter]
    omega
  · have hextra : takesExtra (.keyword .else_) (as ++ moreBranches :: bs) = true := by
      rw [takesExtra_of_passes has hg]
      rfl
    have hpos := surplus_pos_of_takesExtra hextra (w ++ t :: ts)
    omega

/-! ## A branch that is taken as one more follows a last branch -/

theorem exists_of_takesExtra (h : takesExtra t gs = true) :
    ∃ as bs, gs = as ++ moreBranches :: bs ∧ Passes t as ∧
      (t = .keyword .else_ ∨ t = .keyword .elseif) := by
  induction gs with
  | nil => cases h
  | cons g gs ih =>
    cases hreact : g.reactTo t with
    | shift es push =>
      simp only [takesExtra, hreact, beq_iff_eq] at h
      subst h
      exact ⟨[], gs, rfl, List.forall_mem_nil _, shifts_moreBranches.1 ⟨es, push, hreact⟩⟩
    | done es =>
      simp only [takesExtra, hreact] at h
      obtain ⟨as, bs, rfl, has, ht⟩ := ih h
      exact ⟨g :: as, bs, rfl, List.forall_mem_cons.2 ⟨⟨es, hreact⟩, has⟩, ht⟩
    | reject => simp [takesExtra, hreact] at h

/-- A goal that takes branches, with goals after it that take no token: below these no branch is
taken. -/
def Barred (gs : List Goal) : Prop :=
  ∃ as g bs, gs = as ++ g :: bs ∧ (g = branches ∨ g = moreBranches) ∧ Idle bs

/-- Above a goal for one more branch there is what is left of a last branch, or another goal that
takes branches. -/
def Traced (us : List Token) (gs : List Goal) : Prop :=
  ∀ as bs, gs = as ++ moreBranches :: bs →
    Barred as ∨ ∃ xs ys, us = xs ++ .keyword .else_ :: ys ∧ after ys elseGoals = some as

theorem not_done_of_shifts (h : g.Shifts t) : ¬∃ es, g.reactTo t = .done es := by
  rintro ⟨es, hdone⟩
  obtain ⟨_, _, hshift⟩ := h
  cases hshift.symm.trans hdone

/-- A branch that is taken as one more follows a last branch with its block. -/
theorem Traced.block (h : Traced us gs) (hx : takesExtra t gs = true) :
    (t = .keyword .else_ ∨ t = .keyword .elseif) ∧
      ∃ xs ys, us = xs ++ .keyword .else_ :: ys ∧ ys.map Token.terminal ∈ wordsOf block := by
  obtain ⟨as, bs, rfl, has, ht⟩ := exists_of_takesExtra hx
  refine ⟨ht, ?_⟩
  rcases h as bs rfl with ⟨as', g, bs', rfl, hg, -⟩ | ⟨xs, ys, rfl, hafter⟩
  · have hshifts : g.Shifts t := by
      obtain rfl | rfl := hg
      · exact shifts_branches.2 ht
      · exact shifts_moreBranches.2 ht
    exact absurd (has g (by simp)) (not_done_of_shifts hshifts)
  · refine ⟨xs, ys, rfl, ?_⟩
    rw [← stackWords_elseGoals, ← List.append_nil (ys.map _), append_mem_stackWords fits_elseGoals]
    exact ⟨as, hafter, has.nil_mem⟩

/-- A token that is taken otherwise leaves goals for one more branch as they should be. -/
theorem Traced.take (h : Traced us gs) (htake : (Trace.take t gs).2 = some hs)
    (hx : takesExtra t gs = false) : Traced (us ++ [t]) hs := by
  obtain ⟨as, g, bs, es, push, rfl, has, hg, rfl⟩ := exists_of_take htake
  have hmore : g ≠ moreBranches := by
    rintro rfl
    rw [takesExtra_of_passes has hg] at hx
    cases hx
  intro as' bs' hsplit
  rcases split_append hsplit with ⟨cs, rfl, -⟩ | ⟨cs, rfl, rfl⟩
  · -- a goal that has just come: a branch has begun
    obtain rfl := (balance_of_shift hmore hg).2 (by simp)
    have hfirst : ∀ push', moreBranches ∉ push' → push' ++ [moreBranches] = as' ++
        moreBranches :: cs → push' = as' := by
      intro push' hnot hpush
      rcases split_cases hpush with ⟨zs, rfl, -⟩ | ⟨rfl, -⟩ | ⟨zs, -, hzs⟩
      · exact absurd (by simp) hnot
      · rfl
      · simp at hzs
    obtain rfl | rfl := shifts_branches.1 ⟨es, _, hg⟩
    · obtain rfl := hfirst elseGoals (by decide) (Reaction.shift.inj hg).2
      exact .inr ⟨us, [], rfl, rfl⟩
    · obtain rfl := hfirst elseifGoals (by decide) (Reaction.shift.inj hg).2
      exact .inl ⟨_, branches, [actIf .block .closeIf], rfl, .inl rfl, by simp [Idle]⟩
  · -- a goal that was there before
    rcases h (as ++ g :: cs) bs' (by simp) with ⟨xs, x, ys, hxs, hbranch, hidle⟩ | ⟨xs, ys,
      rfl, hafter⟩
    · left
      rcases split_cases hxs with ⟨zs, rfl, rfl⟩ | ⟨rfl, rfl, rfl⟩ | ⟨zs, rfl, rfl⟩
      · exact absurd ⟨es, push, hg⟩ (hidle g (by simp) t)
      · obtain rfl := hbranch.resolve_right hmore
        obtain ⟨push', hpush, -⟩ := exists_branch (shifts_branches.1 ⟨es, push, hg⟩)
        cases hpush.symm.trans hg
        exact ⟨push', moreBranches, cs, by simp, .inr rfl, hidle⟩
      · exact ⟨push ++ zs, x, ys, by simp, hbranch, hidle⟩
    · right
      refine ⟨xs, ys ++ [t], by simp, ?_⟩
      rw [after_append, hafter, Option.bind_some, after, take_of_passes has hg]
      rfl

theorem stray_of_surplus (h : Traced us gs) (hpos : 0 < surplus ts gs) :
    Stray ((us ++ ts).map Token.terminal) := by
  induction ts generalizing us gs with
  | nil => cases hpos
  | cons t ts ih =>
    cases hx : takesExtra t gs with
    | true =>
      obtain ⟨ht, xs, ys, rfl, hys⟩ := h.block hx
      have hstray := stray_of_block hys
          (ht.imp Token.terminal_eq_keyword.2 Token.terminal_eq_keyword.2)
        (xs.map Token.terminal) (ts.map Token.terminal)
      simpa [Token.terminal] using hstray
    | false =>
      cases htake : (Trace.take t gs).2 with
      | none => simp [surplus, hx, htake] at hpos
      | some hs =>
        have hrest : 0 < surplus ts hs := by simpa [surplus, hx, htake] using hpos
        simpa using ih (h.take htake hx) hrest

/-- In a word of the grammar, branches that are taken as one more are those that follow a last
branch. -/
theorem stray_iff (hw : ts.map Token.terminal ∈ stackWords programGoals) :
    Stray (ts.map Token.terminal) ↔ 0 < surplus ts programGoals := by
  constructor
  · rintro ⟨u, b, x, v, hsplit, hb, hx⟩
    obtain ⟨us, rest, rfl, rfl, hafter⟩ := List.map_eq_append_iff.1 hsplit
    obtain ⟨k, rest, rfl, hk, hinside⟩ := List.map_eq_cons_iff.1 hafter
    obtain ⟨bs, rest, rfl, rfl, hnext⟩ := List.map_eq_append_iff.1 hinside
    obtain ⟨t, vs, rfl, rfl, rfl⟩ := List.map_eq_cons_iff.1 hnext
    obtain rfl := Token.terminal_eq_keyword.1 hk
    simp only [Token.terminal_eq_keyword] at hx
    exact surplus_pos_of_stray fits_programGoals hb hx hw
  · intro hpos
    have hstart : Traced [] programGoals := by
      intro as bs hsplit
      exact absurd (by rw [hsplit]; simp) (show moreBranches ∉ programGoals by decide)
    simpa using stray_of_surplus hstart hpos

end Goal

namespace Compiled

open Goal Compiler

variable {source : String}

theorem stop_eq_finished {stop : Stop} {last : Nat} {gs : List Goal} {ls : List Lexeme}
    (h : (Trace.ofGoals stop last gs line ls).ending = .accepted) : stop = .finished := by
  induction ls generalizing gs line with
  | nil => cases stop <;> first | rfl | cases h
  | cons l ls ih =>
    simp only [Trace.ofGoals, Trace.prepend] at h
    split at h
    · exact ih h
    · cases h

/-- A source that is recognised to its end is a word of the grammar, and no other is if it is
scanned to its end. -/
theorem word_mem_iff : (Trace.ofSource line source).ending = .accepted ↔
    (Lexemes.scan line source).stop = .finished ∧ Lexeme.word (Lexemes.scan line source).list ∈
      grammar.language := by
  have hverdict := verdict_ofGoals fits_programGoals (Lexemes.scan line source).line line
    (Lexemes.scan line source).list
  rw [stackWords_programGoals] at hverdict
  constructor
  · intro haccepted
    have hstop := stop_eq_finished haccepted
    rw [Trace.ofSource, Trace.ofLexemes, hstop] at haccepted
    rw [haccepted] at hverdict
    cases hverdict with
    | accepted hmem => exact ⟨hstop, hmem⟩
  · rintro ⟨hstop, hmem⟩
    have hnone := hverdict.rejection.1.2 hmem
    rw [Trace.ofSource, Trace.ofLexemes, hstop]
    revert hnone
    generalize (Trace.ofGoals _ _ _ _ _).ending = e
    intro hnone
    cases e <;> first | rfl | cases hnone

/-- The branches that follow a last branch in a tree of a source are those that are taken as one
more. -/
theorem extras_eq_surplus (hp : p.events = (Trace.ofSource line source).events)
    (haccepted : (Trace.ofSource line source).ending = .accepted) :
    p.extras = surplus ((Lexemes.scan line source).list.map Lexeme.token) programGoals := by
  have hbalance := p.balance_add_extras
  have hcount : balanceOf (Trace.ofSource line source).events +
      surplus ((Lexemes.scan line source).list.map Lexeme.token) programGoals = 0 :=
        balance_ofGoals haccepted
  rw [hp] at hbalance
  omega

theorem stray_iff_extras (hp : p.events = (Trace.ofSource line source).events)
    (haccepted : (Trace.ofSource line source).ending = .accepted) :
    Stray (Lexeme.word (Lexemes.scan line source).list) ↔ 0 < p.extras := by
  have hword : Lexeme.word (Lexemes.scan line source).list =
      ((Lexemes.scan line source).list.map Lexeme.token).map Token.terminal := by
    simp [Lexeme.word]
  have hmem := (word_mem_iff.1 haccepted).2
  rw [hword, ← stackWords_programGoals] at hmem
  rw [extras_eq_surplus hp haccepted, hword]
  exact stray_iff hmem

/-- Without branches after a last branch there are as many jumps as an event takes. -/
theorem pops_le {xs ys : List Event} {e : Event} {c : Compiler} (hx : p.extras = 0)
    (hp : p.events = xs ++ e :: ys) (hr : Runs xs {} c) : e.pops ≤ c.jumps.length :=
  (ready hr hp).jumps hx

theorem rejection_ne_emptyStack (hp : p.events = (Trace.ofSource line source).events)
    (hx : p.extras = 0) : (ofSource line source).rejection ≠ some .emptyStack := by
  intro hempty
  have hsteps : (ofSource line source).rejection = (Trace.ofSource line source).ending.rejection? ∨
      _ :=
    rejection_or_exists_step
  rcases hsteps with hend | ⟨xs, s, ys, r, c, c', hsteps, hruns, hperform, hrejection⟩
  · obtain ⟨k, hk⟩ := Ending.isComplaint (hend.symm.trans hempty)
    cases hk
  · have hsplit : p.events = xs.map Step.event ++ s.event :: ys.map Step.event := by
      rw [hp, Trace.events, hsteps, List.map_append, List.map_cons]
    obtain rfl := Option.some.inj (hempty.symm.trans hrejection)
    have hholding : Holding True c := fun _ _ _ => trivial
    rcases Compile.rejects_of_perform (ready hruns hsplit) hholding
      hperform with htolerated | ⟨name, -, -, hr⟩
    · cases htolerated with
      | complaint hk => cases hk
      | empty hne => exact hne hx
    · cases hr

theorem empty_mem_block : [.symbol .lbrace, .symbol .rbrace] ∈ wordsOf block := by
  rw [wordsOf_block, cons_mem_singleton_mul, cons_mem_mul]
  exact ⟨rfl, .inr ⟨(nil_mem_words (statements .blockEnd)).2 rfl, rfl⟩⟩

/-- The grammar derives conditionals in which another branch follows a last branch. -/
theorem exists_stray : ∃ w ∈ grammar.language, Stray w := by
  let source := "program p; if (true) { } else { } else { }"
  have haccepted : (Trace.ofSource 1 source).ending = .accepted := by
    decide +kernel
  have hmem := (word_mem_iff.1 haccepted).2
  let u : List Terminal := [.keyword .program, .ident, .symbol .semicolon, .keyword .if_,
    .symbol .lparen, .boolVal, .symbol .rparen, .symbol .lbrace, .symbol .rbrace]
  let b : List Terminal := [.symbol .lbrace, .symbol .rbrace]
  have hword : Lexeme.word (Lexemes.scan 1 source).list =
      u ++ .keyword .else_ :: (b ++ .keyword .else_ :: b) := by
    decide +kernel
  rw [hword] at hmem
  exact ⟨_, hmem, stray_of_block empty_mem_block (.inl rfl) u b⟩

/-- **Only conditionals in which the last branch comes last are compiled.** -/
theorem stray_branches (line : Nat) (source : String) :
    (Stray (Lexeme.word (Lexemes.scan line source).list) →
      (ofSource line source).rejection ≠ none) ∧
    ((Lexemes.scan line source).stop = .finished → Lexeme.word (Lexemes.scan line source).list ∈
      grammar.language → ¬Stray (Lexeme.word (Lexemes.scan line source).list) →
        (ofSource line source).rejection ≠ some .emptyStack ∧
        ∀ before s after last, (Trace.ofSource line source).steps = before ++ s :: after →
          (ofSteps .accepted last before {}).rejection = none →
          s.event.pops ≤ (ofSteps .accepted last before {}).state.jumps.length) ∧
    ∃ w ∈ grammar.language, Stray w := by
  refine ⟨fun hstray hnone => ?_, fun hstop hmem hstray => ?_, exists_stray⟩
  · obtain ⟨p, hp, hruns⟩ := exists_runs hnone
    have hpos := (stray_iff_extras hp (runs_ofSteps hnone).1).1 hstray
    rw [p.extras_eq_zero hruns] at hpos
    exact Nat.lt_irrefl _ hpos
  · have haccepted := word_mem_iff.2 ⟨hstop, hmem⟩
    obtain ⟨p, hp⟩ := Trace.exists_tree haccepted
    have hx : p.extras = 0 := Nat.eq_zero_of_not_pos fun hpos =>
        hstray ((stray_iff_extras hp haccepted).2 hpos)
    refine ⟨rejection_ne_emptyStack hp hx, fun before s after last hsteps hbefore => ?_⟩
    have hsplit : p.events = before.map Step.event ++ s.event :: after.map Step.event := by
      rw [hp, Trace.events, hsteps, List.map_append, List.map_cons]
    exact pops_le hx hsplit (runs_ofSteps hbefore).2

/-- A branch after a last branch in a loop, and a conditional with three branches. -/
theorem stray_branches_loop :
    let source := "program p; while (true) { if (true) { } else { } elseif (true) { } }"
    let usual := "program p; if (true) { } elseif (true) { } else { }"
    Stray (Lexeme.word (Lexemes.scan 1 source).list) ∧ (ofSource 1 source).rejection ≠ none ∧
      (ofSource 1 usual).rejection ≠ some .emptyStack := by
  intro source usual
  let u : List Terminal := [.keyword .program, .ident, .symbol .semicolon, .keyword .while_,
    .symbol .lparen, .boolVal, .symbol .rparen, .symbol .lbrace, .keyword .if_, .symbol .lparen,
    .boolVal, .symbol .rparen, .symbol .lbrace, .symbol .rbrace]
  let b : List Terminal := [.symbol .lbrace, .symbol .rbrace]
  let v : List Terminal := [.symbol .lparen, .boolVal, .symbol .rparen, .symbol .lbrace,
    .symbol .rbrace, .symbol .rbrace]
  have hword : Lexeme.word (Lexemes.scan 1 source).list =
      u ++ .keyword .else_ :: (b ++ .keyword .elseif :: v) := by
    decide +kernel
  have hstray := stray_of_block empty_mem_block (.inr rfl) u v
  rw [← hword] at hstray
  have haccepted : (Trace.ofSource 1 usual).ending = .accepted := by
    decide +kernel
  obtain ⟨hstop, hmem⟩ := word_mem_iff.1 haccepted
  have hnot : ¬Stray (Lexeme.word (Lexemes.scan 1 usual).list) := by
    obtain ⟨p, hp⟩ := Trace.exists_tree haccepted
    rw [stray_iff_extras hp haccepted, extras_eq_surplus hp haccepted]
    decide +kernel
  exact ⟨hstray, (stray_branches 1 _).1 hstray, ((stray_branches 1 _).2.1 hstop hmem hnot).1⟩

end Compiled

end Symphony
