import Mathlib.Tactic.Common
import Symphony.Proofs.Compilation

/-!
# Where quads stand

The quads of an accepted source are laid out in regions: a first quad that jumps to the main part,
one region for each function in the order of definition, and the main part. No jump leaves its
region, and a function is left only by its last quad.

The proof follows the tree. While a function is compiled its region is *open* (`Open`): every quad
from the start of the region on either goes to the next one, or jumps to a place in the region, or
is a jump that still waits for its target. The jumps that wait are those of the enclosing
conditionals and loops, and the breaks of the enclosing loops; a construct that ends completes its
own.

One thing stands in the way: after a last branch the grammar lets another branch follow, which would
take a jump that is not its own. But then one jump is missing in the end, so such a source is not
accepted (`extras_eq_zero`).
-/

namespace Symphony

variable {hi i lo n t : Nat} {es : List Event} {q : Quad} {c c' : Compiler} {is js : List Nat}
  {qs xs ys : Array Quad} {e : Event} {isGlobal : Bool}

namespace Quad

/-- A jump to a place between two others. -/
inductive JumpsWithin (lo hi : Nat) : Quad → Prop
  | goto {t : Nat} : lo ≤ t → t ≤ hi → JumpsWithin lo hi [.word "GOTO", .num t]
  | gotof {condition : Field} {t : Nat} :
      lo ≤ t → t ≤ hi → JumpsWithin lo hi [.word "GOTOF", condition, .num t]

/-- A quad that does not leave a region by itself. -/
def StaysWithin (lo hi : Nat) (q : Quad) : Prop :=
  q.Plain ∨ q.JumpsWithin lo hi

/-- A jump without its target. -/
def Waits (q : Quad) : Prop :=
  q = [.word "GOTO"] ∨ ∃ condition, q = [.word "GOTOF", condition]

theorem StaysWithin.mono {hi' : Nat} (h : q.StaysWithin lo hi) (hle : hi ≤ hi') :
    q.StaysWithin lo hi' := by
  rcases h with h | h
  · exact .inl h
  · cases h with
    | goto h₁ h₂ => exact .inr (.goto h₁ (Nat.le_trans h₂ hle))
    | gotof h₁ h₂ => exact .inr (.gotof h₁ (Nat.le_trans h₂ hle))

theorem Waits.complete (h : q.Waits) (h₁ : lo ≤ t) (h₂ : t ≤ hi) :
    StaysWithin lo hi (q ++ [.num t]) := by
  rcases h with rfl | ⟨condition, rfl⟩
  · exact .inr (.goto h₁ h₂)
  · exact .inr (.gotof h₁ h₂)

end Quad

/-! ## Branches after a last branch -/

mutual

/-- How many branches follow a last branch. -/
def Stmt.extras : Stmt → Nat
  | .branch _ body rest => body.extras + rest.extras
  | .loop _ body => body.extras
  | _ => 0

def Block.extras : Block → Nat
  | .nil => 0
  | .cons s rest => s.extras + rest.extras

def Branches.extras : Branches → Nat
  | .done => 0
  | .otherwise body more => body.extras + more.extras
  | .elseif _ body rest more => body.extras + rest.extras + more.extras

def Extra.extras : Extra → Nat
  | .none => 0
  | .otherwise body => body.extras + 1
  | .elseif _ body rest => body.extras + rest.extras + 1

end

namespace Event

/-- By how much an event changes the number of jumps that wait. -/
def balance : Event → Int
  | .testIf | .markLoop | .testLoop => 1
  | .closeIf => -1
  | .closeLoop => -2
  | _ => 0

theorem balance_of_isQuiet (h : e.isQuiet = true) : e.balance = 0 := by
  cases e <;> first | rfl | cases h

/-- By how much events change the number of jumps that wait. -/
def balanceOf : List Event → Int
  | [] => 0
  | e :: es => e.balance + balanceOf es

@[simp] theorem balanceOf_nil : balanceOf [] = 0 := rfl

@[simp] theorem balanceOf_cons (e : Event) (es : List Event) :
    balanceOf (e :: es) = e.balance + balanceOf es := rfl

@[simp] theorem balanceOf_append (xs ys : List Event) :
    balanceOf (xs ++ ys) = balanceOf xs + balanceOf ys := by
  induction xs with
  | nil => simp
  | cons e es ih =>
    rw [List.cons_append, balanceOf_cons, balanceOf_cons, ih]
    omega

theorem balanceOf_eq_zero (h : ∀ e ∈ es, e.isQuiet = true) : balanceOf es = 0 := by
  induction es with
  | nil => rfl
  | cons e es ih =>
    rw [balanceOf_cons, balance_of_isQuiet (h e (by simp)), ih fun e' he => h e' (by simp [he])]
    rfl

@[simp] theorem balanceOf_expr (e : Expr) : balanceOf e.events = 0 :=
  balanceOf_eq_zero e.quiet

@[simp] theorem balanceOf_sizesOf (gs : List Group) : balanceOf (sizesOf gs) = 0 :=
  balanceOf_eq_zero (quiet_sizesOf gs)

end Event

open Event

mutual

theorem Stmt.balance_add_extras : ∀ s : Stmt, balanceOf s.events + s.extras = 0
  | .call name args => by simp [Stmt.events, Stmt.extras]
  | .special name args => by simp [Stmt.events, Stmt.extras]
  | .assign (.variable name) e => by simp [Stmt.events, Stmt.extras, Event.balance]
  | .assign (.element name index) e => by simp [Stmt.events, Stmt.extras, Event.balance]
  | .update u t => by simp [Stmt.events, Stmt.extras]
  | .giveBack e => by simp [Stmt.events, Stmt.extras, Event.balance]
  | .leave => by simp [Stmt.events, Stmt.extras, Event.balance]
  | .branch condition body rest => by
    have h₁ := body.balance_add_extras
    have h₂ := rest.balance_add_extras
    simp [Stmt.events, Stmt.extras, Event.balance]
    omega
  | .loop condition body => by
    have h := body.balance_add_extras
    simp [Stmt.events, Stmt.extras, Event.balance]
    omega

theorem Block.balance_add_extras : ∀ b : Block, balanceOf b.events + b.extras = 0
  | .nil => rfl
  | .cons s rest => by
    have h₁ := s.balance_add_extras
    have h₂ := rest.balance_add_extras
    simp [Block.events, Block.extras]
    omega

theorem Branches.balance_add_extras : ∀ b : Branches, balanceOf b.events + b.extras = -1
  | .done => rfl
  | .otherwise body more => by
    have h₁ := body.balance_add_extras
    have h₂ := more.balance_add_extras
    simp [Branches.events, Branches.extras, Event.balance]
    omega
  | .elseif condition body rest more => by
    have h₁ := body.balance_add_extras
    have h₂ := rest.balance_add_extras
    have h₃ := more.balance_add_extras
    simp [Branches.events, Branches.extras, Event.balance]
    omega

theorem Extra.balance_add_extras : ∀ x : Extra, balanceOf x.events + x.extras = 0
  | .none => rfl
  | .otherwise body => by
    have h := body.balance_add_extras
    simp [Extra.events, Extra.extras, Event.balance]
    omega
  | .elseif condition body rest => by
    have h₁ := body.balance_add_extras
    have h₂ := rest.balance_add_extras
    simp [Extra.events, Extra.extras, Event.balance]
    omega

end

namespace Compiler

section

theorem name_current (c : Compiler) : c.current.name = c.scope := by
  unfold current
  cases h : c.function? c.scope with
  | none => rfl
  | some f => simpa using List.find?_some h

/-- The name and the first quad of every function. -/
def heads (c : Compiler) : List (Scope × Int) :=
  c.functions.map fun f => (f.name, f.start)

/-- A change of tables: no quad is emitted, nothing is opened or closed. -/
structure Tabulates (c c' : Compiler) : Prop where
  quads : c'.quads = c.quads
  jumps : c'.jumps = c.jumps
  breaks : c'.breaks = c.breaks
  openLoops : c'.openLoops = c.openLoops
  scope : c'.scope = c.scope
  selfCalls : c'.selfCalls = c.selfCalls
  heads : c'.heads = c.heads

theorem Tabulates.refl (c : Compiler) : Tabulates c c :=
  ⟨rfl, rfl, rfl, rfl, rfl, rfl, rfl⟩

theorem Tabulates.trans {c₁ c₂ c₃ : Compiler} (h : Tabulates c₁ c₂) (h' : Tabulates c₂ c₃) :
    Tabulates c₁ c₃ :=
  ⟨h'.quads.trans h.quads, h'.jumps.trans h.jumps, h'.breaks.trans h.breaks,
    h'.openLoops.trans h.openLoops, h'.scope.trans h.scope, h'.selfCalls.trans h.selfCalls,
    h'.heads.trans h.heads⟩

theorem tabulates_updateCurrent (c : Compiler) {change : Function → Function}
    (h : ∀ f, (change f).name = f.name ∧ (change f).start = f.start) :
    Tabulates c (c.updateCurrent change) := by
  refine ⟨rfl, rfl, rfl, rfl, rfl, rfl, ?_⟩
  rw [heads, updateCurrent, List.map_map]
  refine List.map_congr_left fun f _ => ?_
  simp only [Function.comp_apply]
  split
  · rw [(h f).1, (h f).2]
  · rfl

theorem DeclaresStep.tabulates {d : Declaration} (h : DeclaresStep isGlobal d c c') :
    Tabulates c c' := by
  cases h with
  | one h =>
    have hreserve : ∀ t n, Tabulates c (c.reserve (variableSector isGlobal) t n) := fun _ _ =>
      ⟨rfl, rfl, rfl, rfl, rfl, rfl, rfl⟩
    cases h <;> exact (hreserve _ _).trans (tabulates_updateCurrent _ fun _ => ⟨rfl, rfl⟩)
  | kind | address => exact tabulates_updateCurrent _ fun _ => ⟨rfl, rfl⟩

theorem DeclaresAll.tabulates {ds : List Declaration} (h : DeclaresAll isGlobal ds c c') :
    Tabulates c c' :=
  h.keeps (fun _ _ _ _ hs h => h.trans hs.tabulates) (.refl c)

theorem DeclaresParams.tabulates {ds : List Declaration} (h : DeclaresParams isGlobal ds c c') :
    Tabulates c c' :=
  h.keeps (fun _ _ _ _ hs h => h.trans hs.tabulates) (.refl c)

theorem tabulates_markFirst (c : Compiler) : Tabulates c c.markFirst :=
  tabulates_updateCurrent _ fun _ => ⟨rfl, rfl⟩

/-- Only quads change when quads are completed. -/
theorem completeAll_eq (c : Compiler) (ps : List (Nat × List Field)) :
    c.completeAll ps = { c with quads := (c.completeAll ps).quads } := by
  induction ps generalizing c with
  | nil => rfl
  | cons p ps ih => exact ih (c.complete p.1 p.2)

theorem Acts.length_jumps (h : Acts e c c') :
    (c'.jumps.length : Int) = c.jumps.length + e.balance := by
  by_cases he : e.isQuiet = true
  · rw [(h.quiet he).jumps, balance_of_isQuiet he, Int.add_zero]
  · cases h with
    | declareGlobals h =>
      rw [((tabulates_markFirst _).trans h.tabulates).jumps]
      exact (Int.add_zero _).symm
    | declareLocals h h' =>
      rw [(((tabulates_markFirst _).trans h.tabulates).trans h'.tabulates).jumps]
      exact (Int.add_zero _).symm
    | enterMain | finish | defineFunction | endFunction | breakLoop | leaveLoop =>
      exact (Int.add_zero _).symm
    | giveBack =>
      rw [completeAll_eq]
      exact (Int.add_zero _).symm
    | testIf | markLoop | testLoop => simp [emit, balance]
    | elseBranch h => simp [h, complete, emit, balance]
    | closeIf h =>
      have hlen := congrArg List.length h
      simp only [List.length_cons] at hlen
      simp only [complete, balance]
      omega
    | closeLoop h =>
      rw [completeAll_eq]
      simp [h, emit, balance]
      omega
    | _ => exact absurd rfl he

theorem RunsBy.length_jumps (h : Runs es c c') :
    (c'.jumps.length : Int) = c.jumps.length + balanceOf es := by
  induction h with
  | nil => simp
  | cons h _ ih =>
    rw [ih, h.length_jumps, balanceOf_cons]
    omega

end

end Compiler

/-- How many branches follow a last branch in functions. -/
def FunctionTree.extrasOf : List FunctionTree → Nat
  | [] => 0
  | f :: fs => f.body.extras + extrasOf fs

/-- How many branches follow a last branch in a program. -/
def Tree.extras (p : Tree) : Nat :=
  FunctionTree.extrasOf p.functions + p.main.extras

theorem FunctionTree.balance_add_extras (fs : List FunctionTree) :
    balanceOf (fs.flatMap FunctionTree.events) + FunctionTree.extrasOf fs = 0 := by
  induction fs with
  | nil => rfl
  | cons f fs ih =>
    have h := f.body.balance_add_extras
    simp [FunctionTree.events, FunctionTree.innerEvents, Event.balance, extrasOf] at ih ⊢
    omega

theorem Tree.balance_add_extras (p : Tree) : balanceOf p.events + p.extras = 0 := by
  have h₁ := FunctionTree.balance_add_extras p.functions
  have h₂ := p.main.balance_add_extras
  simp only [Tree.events, Tree.extras, balanceOf_append, balanceOf_cons, balanceOf_nil,
    balanceOf_sizesOf, Event.balance]
  omega

/-- In a program that is accepted no branch follows a last branch. -/
theorem Tree.extras_eq_zero {p : Tree} (h : Compiler.Runs p.events {} c) : p.extras = 0 := by
  have h₁ : (c.jumps.length : Int) = 0 + balanceOf p.events := h.length_jumps
  have h₂ := p.balance_add_extras
  omega

/-! ## Jumps that wait -/

namespace Quad

/-- Quads that differ only in what was added to a copy. -/
def Alike (q q' : Quad) : Prop :=
  q' = q ∨ ∃ fs fs', q = .word "=" :: fs ∧ q' = .word "=" :: fs'

theorem Alike.refl (q : Quad) : q.Alike q := .inl rfl

theorem Alike.trans {q₁ q₂ q₃ : Quad} (h : q₁.Alike q₂) (h' : q₂.Alike q₃) : q₁.Alike q₃ := by
  rcases h with rfl | ⟨fs, fs', rfl, rfl⟩
  · exact h'
  · rcases h' with rfl | ⟨_, fs'', _, rfl⟩
    · exact .inr ⟨fs, fs', rfl, rfl⟩
    · exact .inr ⟨fs, fs'', rfl, rfl⟩

theorem Alike.waits {q' : Quad} (h : q.Alike q') (hw : q.Waits) : q'.Waits := by
  rcases h with rfl | ⟨fs, fs', rfl, rfl⟩
  · exact hw
  · simp [Waits] at hw

theorem Alike.staysWithin {q' : Quad} (h : q.Alike q') (hs : q.StaysWithin lo hi) :
    q'.StaysWithin lo hi := by
  rcases h with rfl | ⟨fs, fs', rfl, rfl⟩
  · exact hs
  · exact .inl ⟨_, _, rfl, by decide⟩

/-- Quads up to an index are alike. -/
def AlikeBelow (n : Nat) (xs ys : Array Quad) : Prop :=
  ∀ i < n, ∀ q, xs[i]? = some q → ∃ q', ys[i]? = some q' ∧ q.Alike q'

theorem AlikeBelow.refl (n : Nat) (xs : Array Quad) : AlikeBelow n xs xs :=
  fun _ _ q hq => ⟨q, hq, .refl q⟩

theorem AlikeBelow.trans {zs : Array Quad} (h : AlikeBelow n xs ys) (h' : AlikeBelow n ys zs) :
    AlikeBelow n xs zs := by
  intro i hi q hq
  obtain ⟨q', hq', ha⟩ := h i hi q hq
  obtain ⟨q'', hq'', ha'⟩ := h' i hi q' hq'
  exact ⟨q'', hq'', ha.trans ha'⟩

theorem AlikeBelow.mono {m : Nat} (h : AlikeBelow n xs ys) (hm : m ≤ n) : AlikeBelow m xs ys :=
  fun i hi => h i (Nat.lt_of_lt_of_le hi hm)

end Quad

/-- From an index on, the listed quads are jumps that wait, and the others stay in the region. -/
structure Pending (lo : Nat) (is : List Nat) (qs : Array Quad) : Prop where
  nodup : is.Nodup
  waits : ∀ i ∈ is, lo ≤ i ∧ ∃ q, qs[i]? = some q ∧ q.Waits
  stays : ∀ i q, lo ≤ i → i ∉ is → qs[i]? = some q → q.StaysWithin lo qs.size

namespace Pending

theorem lt_size (h : Pending lo is qs) (hi : i ∈ is) : i < qs.size := by
  obtain ⟨-, q, hq, -⟩ := h.waits i hi
  exact (Array.getElem?_eq_some_iff.1 hq).1

theorem perm (h : Pending lo is qs) (hp : is.Perm js) : Pending lo js qs :=
  ⟨hp.nodup_iff.1 h.nodup, fun i hi => h.waits i (hp.mem_iff.2 hi),
    fun i q hlo hi => h.stays i q hlo (mt hp.mem_iff.1 hi)⟩

theorem push_stays (h : Pending lo is qs) (hq : q.StaysWithin lo (qs.size + 1)) :
    Pending lo is (qs.push q) := by
  refine ⟨h.nodup, fun i hi => ?_, fun i q' hlo hi hq' => ?_⟩
  · obtain ⟨hlo, q', hq', hw⟩ := h.waits i hi
    refine ⟨hlo, q', ?_, hw⟩
    rw [Array.getElem?_push_lt (h.lt_size hi), ← hq', Array.getElem?_eq_getElem (h.lt_size hi)]
  · rw [Array.size_push]
    rw [Array.getElem?_push] at hq'
    split at hq'
    · cases hq'
      exact hq
    · exact (h.stays i q' hlo hi hq').mono (Nat.le_succ _)

theorem push_waits (h : Pending lo is qs) (hlo : lo ≤ qs.size) (hq : q.Waits) :
    Pending lo (qs.size :: is) (qs.push q) := by
  have hnew : qs.size ∉ is := fun hi => Nat.lt_irrefl _ (h.lt_size hi)
  refine ⟨List.nodup_cons.2 ⟨hnew, h.nodup⟩, fun i hi => ?_, fun i q' hlo' hi hq' => ?_⟩
  · rcases List.mem_cons.1 hi with rfl | hi
    · exact ⟨hlo, q, Array.getElem?_push_size, hq⟩
    · obtain ⟨hlo', q', hq', hw⟩ := h.waits i hi
      refine ⟨hlo', q', ?_, hw⟩
      rw [Array.getElem?_push_lt (h.lt_size hi), ← hq', Array.getElem?_eq_getElem (h.lt_size hi)]
  · rw [Array.size_push]
    rw [Array.getElem?_push, if_neg fun h => hi (by simp [h])] at hq'
    exact (h.stays i q' hlo' (fun h => hi (by simp [h])) hq').mono (Nat.le_succ _)

/-- A jump that gets its target does not wait any more. -/
theorem complete (h : Pending lo (i :: is) qs) (hlo : lo ≤ t) (ht : t ≤ qs.size) :
    Pending lo is (qs.modify i (· ++ [.num t])) := by
  obtain ⟨hnew, hnodup⟩ := List.nodup_cons.1 h.nodup
  refine ⟨hnodup, fun j hj => ?_, fun j q hlo' hj hq => ?_⟩
  · have hne : i ≠ j := fun h => hnew (h ▸ hj)
    rw [Array.getElem?_modify, if_neg hne]
    exact h.waits j (List.mem_cons_of_mem _ hj)
  · rw [Array.size_modify]
    rw [Array.getElem?_modify] at hq
    split at hq
    case isTrue hij =>
      obtain ⟨-, q', hq', hw⟩ := h.waits i (by simp)
      rw [← hij, hq'] at hq
      cases hq
      exact hw.complete hlo ht
    case isFalse hij => exact h.stays j q hlo' (by simp [hj, Ne.symm hij]) hq

theorem alike (h : Pending lo is qs) {qs' : Array Quad} (hsize : qs'.size = qs.size)
    (ha : Quad.AlikeBelow qs.size qs qs') : Pending lo is qs' := by
  refine ⟨h.nodup, fun i hi => ?_, fun i q' hlo hi hq' => ?_⟩
  · obtain ⟨hlo, q, hq, hw⟩ := h.waits i hi
    obtain ⟨q', hq', hqq'⟩ := ha i (h.lt_size hi) q hq
    exact ⟨hlo, q', hq', hqq'.waits hw⟩
  · have hlt : i < qs.size := hsize ▸ (Array.getElem?_eq_some_iff.1 hq').1
    obtain ⟨q'', hq'', hqq'⟩ := ha i hlt _ (Array.getElem?_eq_getElem hlt)
    rw [hq'] at hq''
    cases hq''
    rw [hsize]
    exact hqq'.staysWithin (h.stays i _ hlo hi (Array.getElem?_eq_getElem hlt))

theorem append (h : Pending lo is qs) {qs' : Array Quad} {new : List Quad}
    (hqs : qs'.toList = qs.toList ++ new) (hplain : ∀ q ∈ new, q.Plain) : Pending lo is qs' := by
  induction new generalizing qs with
  | nil => rwa [Array.toList_inj.1 (hqs.trans (List.append_nil _))]
  | cons q new ih =>
    refine ih (h.push_stays (.inl (hplain q (by simp)))) ?_ fun q' hq' => hplain q' (by simp [hq'])
    rw [hqs, Array.toList_push, List.append_assoc]
    rfl

/-- All jumps of a list get the same target. -/
theorem completeAll (h : Pending lo (js ++ is) c.quads) (hlo : lo ≤ t) (ht : t ≤ c.quads.size) :
    Pending lo is (c.completeAll (js.map (·, [.num t]))).quads := by
  induction js generalizing c with
  | nil => exact h
  | cons j js ih =>
    exact ih (c := c.complete j [.num t]) (h.complete hlo ht) (by simpa using ht)

end Pending

namespace Compiler

section

/-- A copy stands at an index, complete or not. -/
def IsCopy (qs : Array Quad) (i : Nat) : Prop :=
  ∃ fs, qs[i]? = some (.word "=" :: fs)

theorem IsCopy.push (h : IsCopy qs i) (q : Quad) : IsCopy (qs.push q) i := by
  obtain ⟨fs, hfs⟩ := h
  exact ⟨fs, getElem?_of_append Array.toList_push hfs⟩

theorem IsCopy.modify (h : IsCopy qs i) (j : Nat) (gs : List Field) :
    IsCopy (qs.modify j (· ++ gs)) i := by
  obtain ⟨fs, hfs⟩ := h
  rw [IsCopy, Array.getElem?_modify, hfs]
  split
  · exact ⟨fs ++ gs, rfl⟩
  · exact ⟨fs, rfl⟩

theorem IsCopy.completeAll (h : IsCopy c.quads i) (ps : List (Nat × List Field)) :
    IsCopy (c.completeAll ps).quads i := by
  induction ps generalizing c with
  | nil => exact h
  | cons p ps ih => exact ih (c := c.complete p.1 p.2) (h.modify p.1 p.2)

/-- The region that starts at an index is still open. -/
structure Open (lo : Nat) (is : List Nat) (c : Compiler) : Prop where
  size : lo ≤ c.quads.size
  pending : Pending lo (is ++ c.breaks) c.quads
  selfCalls : ∀ p ∈ c.selfCalls, IsCopy c.quads p.1
  openLoops : 0 ≤ c.openLoops
  breaks : c.openLoops = 0 → c.breaks = []

/-- What does not change while a region is open. -/
structure Advances (lo : Nat) (c c' : Compiler) : Prop where
  size : c.quads.size ≤ c'.quads.size
  below : Quad.AlikeBelow lo c.quads c'.quads
  scope : c'.scope = c.scope
  heads : c'.heads = c.heads

theorem Advances.trans {c₁ c₂ c₃ : Compiler} (h : Advances lo c₁ c₂) (h' : Advances lo c₂ c₃) :
    Advances lo c₁ c₃ :=
  ⟨Nat.le_trans h.size h'.size, h.below.trans h'.below, h'.scope.trans h.scope,
    h'.heads.trans h.heads⟩

theorem alikeBelow_of_append {qs : List Quad} (h : ys.toList = xs.toList ++ qs) (n : Nat) :
    Quad.AlikeBelow n xs ys :=
  fun _ _ q hq => ⟨q, getElem?_of_append h hq, .refl q⟩

theorem alikeBelow_modify (h : n ≤ i) (f : Quad → Quad) : Quad.AlikeBelow n xs (xs.modify i f) := by
  intro j hj q hq
  have hne : i ≠ j := fun h' => Nat.lt_irrefl _ (Nat.lt_of_lt_of_le hj (h' ▸ h))
  exact ⟨q, by rw [Array.getElem?_modify, if_neg hne, hq], .refl q⟩

theorem Open.quiet (h : Open lo is c) (hq : Quiet c c') : Open lo is c' ∧ Advances lo c c' := by
  obtain ⟨qs, hqs, hplain⟩ := hq.quads
  have hsize : c.quads.size ≤ c'.quads.size := by
    rw [← Array.length_toList, ← Array.length_toList, hqs, List.length_append]
    exact Nat.le_add_right _ _
  refine ⟨⟨Nat.le_trans h.size hsize, ?_, fun p hp => ?_, ?_, ?_⟩,
    ⟨hsize, alikeBelow_of_append hqs lo, hq.scope, by rw [heads, hq.functions, heads]⟩⟩
  · rw [hq.breaks]
    exact h.pending.append hqs hplain
  · rcases hq.selfCalls p hp with hp | hp
    · obtain ⟨fs, hfs⟩ := h.selfCalls p hp
      exact ⟨fs, getElem?_of_append hqs hfs⟩
    · exact ⟨[], hp⟩
  · rw [hq.openLoops]
    exact h.openLoops
  · rw [hq.openLoops, hq.breaks]
    exact h.breaks

/-- A jump that waits stands at an index. -/
def WaitsAt (c : Compiler) (i : Nat) : Prop :=
  ∃ q, c.quads[i]? = some q ∧ q.Waits

/-- An event completes only jumps that wait, and copies; functions do not nest. -/
def Tidy (c : Compiler) : Event → Prop
  | .closeIf | .elseBranch => ∀ i js, c.jumps = i :: js → c.WaitsAt i
  | .closeLoop => (∀ i js, c.jumps = i :: js → c.WaitsAt i) ∧ ∀ i ∈ c.breaks, c.WaitsAt i
  | .enterMain => c.WaitsAt 0
  | .giveBack => ∀ p ∈ c.selfCalls, IsCopy c.quads p.1
  | .defineFunction .. => c.scope = none
  | _ => True

/-- The compiler takes events, and each is tidy. -/
abbrev TidyRuns : List Event → Compiler → Compiler → Prop :=
  RunsBy fun e c c' => Acts e c c' ∧ c.Tidy e

theorem RunsBy.plain (h : TidyRuns es c c') : Runs es c c' :=
  h.imp fun _ _ _ ha => ha.1

theorem tidy_of_isQuiet (c : Compiler) (h : e.isQuiet = true) : c.Tidy e := by
  cases e <;> trivial

theorem RunsBy.tidy (h : Runs es c c') (hes : ∀ e ∈ es, e.isQuiet = true) : TidyRuns es c c' := by
  induction h with
  | nil => exact .nil _
  | cons h _ ih =>
    exact .cons ⟨h, tidy_of_isQuiet _ (hes _ (by simp))⟩ (ih fun e he => hes e (by simp [he]))

theorem Open.waitsAt (h : Open lo is c) (hi : i ∈ is) : c.WaitsAt i :=
  (h.pending.waits i (List.mem_append_left _ hi)).2

theorem Open.tidy_closeIf (h : Open lo (i :: is) c) (hjumps : c.jumps = i :: js) :
    ∀ j ks, c.jumps = j :: ks → c.WaitsAt j := by
  intro j ks hj
  obtain ⟨rfl, -⟩ := List.cons.inj (hjumps.symm.trans hj)
  exact h.waitsAt (List.mem_cons_self ..)

theorem Open.tidy_closeLoop (h : Open lo (i :: is) c) (hjumps : c.jumps = i :: js) :
    c.Tidy .closeLoop :=
  ⟨h.tidy_closeIf hjumps, fun j hj => (h.pending.waits j (List.mem_append_right _ hj)).2⟩

theorem Open.of_quiet (h : Open lo is c) (hr : Runs es c c') (hes : ∀ e ∈ es, e.isQuiet = true) :
    Open lo is c' ∧ Advances lo c c' ∧ c'.jumps = c.jumps ∧ c'.openLoops = c.openLoops := by
  have hq := hr.quiet hes
  exact ⟨(h.quiet hq).1, (h.quiet hq).2, hq.jumps, hq.openLoops⟩

theorem Open.markLoop (h : Open lo is c) (ha : Acts .markLoop c c') :
    Open lo is c' ∧ Advances lo c c' ∧ c'.jumps = c.quads.size :: c.jumps ∧
      c'.openLoops = c.openLoops := by
  cases ha with
  | markLoop => exact ⟨⟨h.size, h.pending, h.selfCalls, h.openLoops, h.breaks⟩,
    ⟨Nat.le_refl _, .refl _ _, rfl, rfl⟩, rfl, rfl⟩

/-- A jump without its target is emitted. -/
theorem Open.testIf (h : Open lo is c) (ha : Acts .testIf c c') :
    Open lo (c.quads.size :: is) c' ∧ Advances lo c c' ∧ c'.jumps = c.quads.size :: c.jumps ∧
      c'.openLoops = c.openLoops := by
  cases ha with
  | testIf =>
    refine ⟨⟨Nat.le_trans h.size (by simp [emit]), ?_, ?_, h.openLoops, h.breaks⟩,
      ⟨by simp [emit], alikeBelow_of_append Array.toList_push lo, rfl, rfl⟩, rfl, rfl⟩
    · exact h.pending.push_waits h.size (.inr ⟨_, rfl⟩)
    · exact fun p hp => (h.selfCalls p hp).push _

theorem Open.testLoop (h : Open lo is c) (ha : Acts .testLoop c c') :
    Open lo (c.quads.size :: is) c' ∧ Advances lo c c' ∧ c'.jumps = c.quads.size :: c.jumps ∧
      c'.openLoops = c.openLoops + 1 := by
  cases ha with
  | testLoop =>
    have hloops := h.openLoops
    refine ⟨⟨Nat.le_trans h.size (by simp [emit]), ?_, ?_, ?_, ?_⟩,
      ⟨by simp [emit], alikeBelow_of_append Array.toList_push lo, rfl, rfl⟩, rfl, rfl⟩
    · exact h.pending.push_waits h.size (.inr ⟨_, rfl⟩)
    · exact fun p hp => (h.selfCalls p hp).push _
    · exact Int.add_nonneg hloops (by decide)
    · intro h0
      simp only [emit] at h0
      omega

theorem Open.breakLoop (h : Open lo is c) (ha : Acts .breakLoop c c') :
    Open lo is c' ∧ Advances lo c c' ∧ c'.jumps = c.jumps ∧ c'.openLoops = c.openLoops := by
  cases ha with
  | breakLoop hopen =>
    refine ⟨⟨Nat.le_trans h.size (by simp [emit]), ?_, ?_, h.openLoops, fun h0 => absurd h0 hopen⟩,
      ⟨by simp [emit], alikeBelow_of_append Array.toList_push lo, rfl, rfl⟩, rfl, rfl⟩
    · refine (h.pending.push_waits h.size (.inl rfl)).perm ?_
      rw [emit, ← List.append_assoc]
      exact (List.perm_append_singleton _ _).symm
    · exact fun p hp => (h.selfCalls p hp).push _

theorem Open.closeIf {i : Nat} {js : List Nat} (h : Open lo (i :: is) c)
    (hjumps : c.jumps = i :: js) (ha : Acts .closeIf c c') :
    Open lo is c' ∧ Advances lo c c' ∧ c'.jumps = js ∧ c'.openLoops = c.openLoops := by
  cases ha with
  | closeIf hj =>
    obtain ⟨rfl, rfl⟩ := List.cons.inj (hjumps.symm.trans hj)
    refine ⟨⟨?_, h.pending.complete h.size (Nat.le_refl _), ?_, h.openLoops, h.breaks⟩,
      ⟨by simp, alikeBelow_modify (h.pending.waits i (by simp)).1 _, rfl, rfl⟩, rfl, rfl⟩
    · rw [Compile.size_complete]
      exact h.size
    · exact fun p hp => (h.selfCalls p hp).modify _ _

theorem Open.elseBranch {i : Nat} {js : List Nat} (h : Open lo (i :: is) c)
    (hjumps : c.jumps = i :: js) (ha : Acts .elseBranch c c') :
    Open lo (c.quads.size :: is) c' ∧ Advances lo c c' ∧ c'.jumps = c.quads.size :: js ∧
      c'.openLoops = c.openLoops := by
  cases ha with
  | elseBranch hj =>
    obtain ⟨rfl, rfl⟩ := List.cons.inj (hjumps.symm.trans hj)
    have hw := (h.pending.push_waits h.size (.inl rfl)).perm (List.Perm.swap _ _ _)
    have hlo := Nat.le_succ_of_le h.size
    refine ⟨⟨?_, hw.complete hlo (by simp), ?_, h.openLoops, h.breaks⟩,
      ⟨by simp [emit], ?_, rfl, rfl⟩, rfl, rfl⟩
    · rw [Compile.size_complete]
      exact Nat.le_trans h.size (by simp [emit])
    · exact fun p hp => ((h.selfCalls p hp).push _).modify _ _
    · exact (alikeBelow_of_append Array.toList_push lo).trans
        (alikeBelow_modify (h.pending.waits i (by simp)).1 _)

theorem alikeBelow_completeAll {ps : List (Nat × List Field)} (h : ∀ p ∈ ps, n ≤ p.1) :
    Quad.AlikeBelow n c.quads (c.completeAll ps).quads := by
  induction ps generalizing c with
  | nil => exact .refl _ _
  | cons p ps ih =>
    exact (alikeBelow_modify (h p (by simp)) _).trans
      (ih (c := c.complete p.1 p.2) fun p' hp' => h p' (by simp [hp']))

/-- The end of a loop closes its test and all breaks. -/
theorem Open.closeLoop {test condition : Nat} {js : List Nat} (h : Open lo (test :: is) c)
    (hjumps : c.jumps = test :: condition :: js) (hlo : lo ≤ condition)
    (hle : condition ≤ c.quads.size) (hopen : 0 < c.openLoops) {c'' : Compiler}
    (ha : Acts .closeLoop c c') (hb : Acts .leaveLoop c' c'') :
    Open lo is c'' ∧ Advances lo c c'' ∧ c''.jumps = js ∧ c''.openLoops = c.openLoops - 1 := by
  cases hb with
  | leaveLoop =>
    cases ha with
    | closeLoop hj =>
      obtain ⟨rfl, htail⟩ := List.cons.inj (hjumps.symm.trans hj)
      obtain ⟨rfl, rfl⟩ := List.cons.inj htail
      have hstays : Quad.StaysWithin lo (c.quads.size + 1) [.word "GOTO", .num condition] :=
        .inr (.goto hlo (Nat.le_succ_of_le hle))
      have hw : Pending lo ((test :: c.breaks) ++ is) (c.quads.push _) :=
        (h.pending.push_stays hstays).perm (.cons _ List.perm_append_comm)
      have hbelow : ∀ p ∈ (test :: c.breaks).map (·, [Field.num (c.quads.size + 1 : Nat)]),
          lo ≤ p.1 := by
        intro p hp
        obtain ⟨i, hi, rfl⟩ := List.mem_map.1 hp
        exact (hw.waits i (List.mem_append_left _ hi)).1
      generalize hd : Compiler.completeAll _ _ = d
      rw [completeAll_eq] at hd
      subst hd
      refine ⟨⟨?_, ?_, fun p hp => ((h.selfCalls p hp).push _).completeAll _, ?_, fun _ => rfl⟩,
        ⟨by simp [emit], ?_, rfl, rfl⟩, rfl, rfl⟩
      · simpa [emit] using Nat.le_succ_of_le h.size
      · rw [List.append_nil]
        exact hw.completeAll (Nat.le_succ_of_le h.size) (by simp [emit])
      · exact Int.le_sub_one_of_lt hopen
      · exact (alikeBelow_of_append Array.toList_push lo).trans
          (alikeBelow_completeAll (c := emit { c with jumps := js } _) hbelow)

/-- Completing copies leaves copies. -/
theorem alikeBelow_completeAll_copies {ps : List (Nat × List Field)}
    (h : ∀ p ∈ ps, IsCopy c.quads p.1) : Quad.AlikeBelow n c.quads (c.completeAll ps).quads := by
  induction ps generalizing c with
  | nil => exact .refl _ _
  | cons p ps ih =>
    have hfirst : Quad.AlikeBelow n c.quads (c.complete p.1 p.2).quads := by
      intro i _ q hq
      obtain ⟨fs, hfs⟩ := h p (by simp)
      by_cases hi : p.1 = i
      · refine ⟨q ++ p.2, by rw [complete, Array.getElem?_modify, if_pos hi, hq]; rfl, ?_⟩
        rw [hi, hq] at hfs
        cases hfs
        exact .inr ⟨fs, fs ++ p.2, rfl, rfl⟩
      · exact ⟨q, by rw [complete, Array.getElem?_modify, if_neg hi, hq], .refl q⟩
    exact hfirst.trans (ih (c := c.complete p.1 p.2) fun p' hp' =>
      (h p' (by simp [hp'])).modify _ _)

/-- A function's own calls get their result place. -/
theorem Open.giveBack (h : Open lo is c) (ha : Acts .giveBack c c') :
    Open lo is c' ∧ Advances lo c c' ∧ c'.jumps = c.jumps ∧ c'.openLoops = c.openLoops := by
  cases ha with
  | @giveBack _ x rest =>
    let d := { c with operands := rest }.updateCurrent
      fun f => { f with returnPlace := some x.place }
    have hcopies : ∀ p ∈ c.selfCalls.map fun (p : Nat × Int) => (p.1, [x.place, Field.num p.2]),
        IsCopy d.quads p.1 := by
      intro p hp
      obtain ⟨p', hp', rfl⟩ := List.mem_map.1 hp
      exact h.selfCalls p' hp'
    have hheads : Tabulates { c with operands := rest } d :=
      tabulates_updateCurrent _ fun _ => ⟨rfl, rfl⟩
    have hsize := Compile.size_completeAll d
      (c.selfCalls.map fun (p : Nat × Int) => (p.1, [x.place, Field.num p.2]))
    generalize he : Compiler.completeAll _ _ = e
    rw [completeAll_eq] at he
    subst he
    refine ⟨⟨?_, ?_, fun p hp => (h.selfCalls p hp).completeAll (c := d) _, h.openLoops, h.breaks⟩,
      ⟨Nat.le_of_eq hsize.symm, alikeBelow_completeAll_copies (c := d) hcopies, rfl, hheads.heads⟩,
        rfl, rfl⟩
    · exact hsize ▸ h.size
    · exact h.pending.alike hsize (alikeBelow_completeAll_copies (c := d) hcopies)

end

end Compiler

open Compiler

/-- What compiling a part of a region comes to. -/
structure Proceeds (lo : Nat) (is js : List Nat) (es : List Event) (c c' : Compiler) : Prop where
  isOpen : Open lo is c'
  advances : Advances lo c c'
  jumps : c'.jumps = js
  openLoops : c'.openLoops = c.openLoops
  tidy : TidyRuns es c c'

theorem Compiler.Open.proceeds (h : Open lo is c) (hr : Runs es c c')
    (hes : ∀ e ∈ es, e.isQuiet = true) : Proceeds lo is c.jumps es c c' := by
  obtain ⟨h₁, h₂, h₃, h₄⟩ := h.of_quiet hr hes
  exact ⟨h₁, h₂, h₃, h₄, hr.tidy hes⟩

mutual

/-- A statement leaves its region open: all its jumps stay in the region. -/
theorem Stmt.proceeds : ∀ (s : Stmt) {lo : Nat} {is : List Nat} {c c' : Compiler},
    Runs s.events c c' → s.extras = 0 → Open lo is c → Proceeds lo is c.jumps s.events c c'
  | .call name args, lo, is, c, c', h, _, ho => ho.proceeds h (Expr.call name args).quiet
  | .special name args, lo, is, c, c', h, _, ho => ho.proceeds h (Expr.special name args).quiet
  | .assign (.variable name) e, lo, is, c, c', h, _, ho => by
    refine ho.proceeds h fun ev hev => ?_
    rcases List.mem_append.1 hev with hev | hev
    · exact e.quiet ev hev
    · rw [List.mem_singleton.1 hev]
      rfl
  | .assign (.element name index) e, lo, is, c, c', h, _, ho => by
    refine ho.proceeds h fun ev hev => ?_
    simp only [Stmt.events, List.mem_append, List.mem_cons, List.not_mem_nil, or_false] at hev
    rcases hev with hev | rfl | hev | rfl
    exacts [index.quiet ev hev, rfl, e.quiet ev hev, rfl]
  | .update u t, lo, is, c, c', h, _, ho => ho.proceeds h (Expr.update u t).quiet
  | .giveBack e, lo, is, c, c', h, _, ho => by
    obtain ⟨c₁, h₁, h₂⟩ := runs_append.1 h
    have p₁ := ho.proceeds h₁ e.quiet
    have h₂ := runs_singleton.1 h₂
    obtain ⟨ho₂, ha₂, hj₂, hl₂⟩ := p₁.isOpen.giveBack h₂
    exact ⟨ho₂, p₁.advances.trans ha₂, hj₂.trans p₁.jumps, hl₂.trans p₁.openLoops,
      runs_append.2 ⟨c₁, p₁.tidy, runs_singleton.2 ⟨h₂, p₁.isOpen.selfCalls⟩⟩⟩
  | .leave, lo, is, c, c', h, _, ho => by
    have h := runs_singleton.1 h
    obtain ⟨ho₁, ha₁, hj₁, hl₁⟩ := ho.breakLoop h
    exact ⟨ho₁, ha₁, hj₁, hl₁, runs_singleton.2 ⟨h, trivial⟩⟩
  | .branch condition body rest, lo, is, c, c', h, hx, ho => by
    obtain ⟨hx₁, hx₂⟩ : body.extras = 0 ∧ rest.extras = 0 := by simpa [Stmt.extras] using hx
    obtain ⟨c₁, h₁, h₂⟩ := runs_append.1 h
    obtain ⟨c₂, h₂, h₃⟩ := runs_cons.1 h₂
    obtain ⟨c₃, h₃, h₄⟩ := runs_append.1 h₃
    have p₁ := ho.proceeds h₁ condition.quiet
    obtain ⟨ho₂, ha₂, hj₂, hl₂⟩ := p₁.isOpen.testIf h₂
    have p₃ := body.proceeds h₃ hx₁ ho₂
    -- What follows the block closes the jump of the test.
    have p₄ := rest.proceeds h₄ hx₂ (p₃.jumps.trans hj₂) p₃.isOpen
    exact ⟨p₄.isOpen, ((p₁.advances.trans ha₂).trans p₃.advances).trans p₄.advances,
      p₄.jumps.trans p₁.jumps, ((p₄.openLoops.trans p₃.openLoops).trans hl₂).trans p₁.openLoops,
      runs_append.2 ⟨c₁, p₁.tidy, .cons ⟨h₂, trivial⟩ (runs_append.2 ⟨c₃, p₃.tidy, p₄.tidy⟩)⟩⟩
  | .loop condition body, lo, is, c, c', h, hx, ho => by
    obtain ⟨c₁, h₁, h₂⟩ := runs_cons.1 h
    obtain ⟨c₂, h₂, h₃⟩ := runs_append.1 h₂
    obtain ⟨c₃, h₃, h₄⟩ := runs_cons.1 h₃
    obtain ⟨c₄, h₄, h₅⟩ := runs_append.1 h₄
    obtain ⟨c₅, h₅, h₆⟩ := runs_cons.1 h₅
    have h₆ := runs_singleton.1 h₆
    obtain ⟨ho₁, ha₁, hj₁, hl₁⟩ := ho.markLoop h₁
    have p₂ := ho₁.proceeds h₂ condition.quiet
    obtain ⟨ho₃, ha₃, hj₃, hl₃⟩ := p₂.isOpen.testLoop h₃
    have p₄ := body.proceeds h₄ hx ho₃
    -- The body has closed its own jumps, so the two of the loop are on top again.
    have hjumps := ((p₄.jumps.trans hj₃).trans (congrArg _ p₂.jumps)).trans (congrArg _ hj₁)
    have hadv := ((ha₁.trans p₂.advances).trans ha₃).trans p₄.advances
    have hloops := p₂.isOpen.openLoops
    have hl₂ := p₂.openLoops
    have hl₄ := p₄.openLoops
    obtain ⟨ho₅, ha₅, hj₅, hl₅⟩ :=
      p₄.isOpen.closeLoop hjumps ho.size hadv.size (by omega) h₅ h₆
    exact ⟨ho₅, hadv.trans ha₅, hj₅, by omega, .cons ⟨h₁, trivial⟩ (runs_append.2 ⟨c₂, p₂.tidy,
      .cons ⟨h₃, trivial⟩ (runs_append.2 ⟨c₄, p₄.tidy,
        .cons ⟨h₅, p₄.isOpen.tidy_closeLoop hjumps⟩ (runs_singleton.2 ⟨h₆, trivial⟩)⟩)⟩)⟩

theorem Block.proceeds : ∀ (b : Block) {lo : Nat} {is : List Nat} {c c' : Compiler},
    Runs b.events c c' → b.extras = 0 → Open lo is c → Proceeds lo is c.jumps b.events c c'
  | .nil, lo, is, c, c', h, _, ho => ho.proceeds h (by simp [Block.events])
  | .cons s rest, lo, is, c, c', h, hx, ho => by
    obtain ⟨hx₁, hx₂⟩ : s.extras = 0 ∧ rest.extras = 0 := by simpa [Block.extras] using hx
    obtain ⟨c₁, h₁, h₂⟩ := runs_append.1 h
    have p₁ := s.proceeds h₁ hx₁ ho
    have p₂ := rest.proceeds h₂ hx₂ p₁.isOpen
    exact ⟨p₂.isOpen, p₁.advances.trans p₂.advances, p₂.jumps.trans p₁.jumps,
      p₂.openLoops.trans p₁.openLoops, runs_append.2 ⟨c₁, p₁.tidy, p₂.tidy⟩⟩

/-- What follows the first block of a conditional closes the jump over that block. -/
theorem Branches.proceeds : ∀ (b : Branches) {lo i : Nat} {is js : List Nat} {c c' : Compiler},
    Runs b.events c c' → b.extras = 0 → c.jumps = i :: js → Open lo (i :: is) c →
      Proceeds lo is js b.events c c'
  | .done, lo, i, is, js, c, c', h, _, hj, ho => by
    have h := runs_singleton.1 h
    obtain ⟨ho₁, ha₁, hj₁, hl₁⟩ := ho.closeIf hj h
    exact ⟨ho₁, ha₁, hj₁, hl₁, runs_singleton.2 ⟨h, ho.tidy_closeIf hj⟩⟩
  | .otherwise body .none, lo, i, is, js, c, c', h, hx, hj, ho => by
    have hx₁ : body.extras = 0 := by simpa [Branches.extras, Extra.extras] using hx
    obtain ⟨c₁, h₁, h₂⟩ := runs_cons.1 h
    obtain ⟨c₂, h₂, h₃⟩ := runs_append.1 h₂
    have h₃ := runs_singleton.1 h₃
    obtain ⟨ho₁, ha₁, hj₁, hl₁⟩ := ho.elseBranch hj h₁
    have p₂ := body.proceeds h₂ hx₁ ho₁
    have hj₂ := p₂.jumps.trans hj₁
    obtain ⟨ho₃, ha₃, hj₃, hl₃⟩ := p₂.isOpen.closeIf hj₂ h₃
    exact ⟨ho₃, (ha₁.trans p₂.advances).trans ha₃, hj₃, (hl₃.trans p₂.openLoops).trans hl₁,
      .cons ⟨h₁, ho.tidy_closeIf hj⟩ (runs_append.2 ⟨c₂, p₂.tidy,
        runs_singleton.2 ⟨h₃, p₂.isOpen.tidy_closeIf hj₂⟩⟩)⟩
  | .elseif condition body rest .none, lo, i, is, js, c, c', h, hx, hj, ho => by
    obtain ⟨hx₁, hx₂⟩ : body.extras = 0 ∧ rest.extras = 0 := by
      simpa [Branches.extras, Extra.extras] using hx
    obtain ⟨c₁, h₁, h₂⟩ := runs_cons.1 h
    obtain ⟨c₂, h₂, h₃⟩ := runs_append.1 h₂
    obtain ⟨c₃, h₃, h₄⟩ := runs_cons.1 h₃
    obtain ⟨c₄, h₄, h₅⟩ := runs_append.1 h₄
    obtain ⟨c₅, h₅, h₆⟩ := runs_append.1 h₅
    have h₆ := runs_singleton.1 h₆
    obtain ⟨ho₁, ha₁, hj₁, hl₁⟩ := ho.elseBranch hj h₁
    have p₂ := ho₁.proceeds h₂ condition.quiet
    obtain ⟨ho₃, ha₃, hj₃, hl₃⟩ := p₂.isOpen.testIf h₃
    have p₄ := body.proceeds h₄ hx₁ ho₃
    have p₅ := rest.proceeds h₅ hx₂ (p₄.jumps.trans hj₃) p₄.isOpen
    -- The test's jump is closed by the inner branches; the jump over this one is left.
    have hj₅ := p₅.jumps.trans (p₂.jumps.trans hj₁)
    obtain ⟨ho₆, ha₆, hj₆, hl₆⟩ := p₅.isOpen.closeIf hj₅ h₆
    have hadv := (((ha₁.trans p₂.advances).trans ha₃).trans p₄.advances).trans p₅.advances
    have hloops := (((p₅.openLoops.trans p₄.openLoops).trans hl₃).trans p₂.openLoops).trans hl₁
    exact ⟨ho₆, hadv.trans ha₆, hj₆, hl₆.trans hloops,
      .cons ⟨h₁, ho.tidy_closeIf hj⟩ (runs_append.2 ⟨c₂, p₂.tidy, .cons ⟨h₃, trivial⟩
        (runs_append.2 ⟨c₄, p₄.tidy, runs_append.2 ⟨c₅, p₅.tidy,
          runs_singleton.2 ⟨h₆, p₅.isOpen.tidy_closeIf hj₅⟩⟩⟩)⟩)⟩
  -- There are no further branches.
  | .otherwise body (.otherwise _), _, _, _, _, _, _, _, hx, _, _ => by
    simp [Branches.extras, Extra.extras] at hx
  | .otherwise body (.elseif ..), _, _, _, _, _, _, _, hx, _, _ => by
    simp [Branches.extras, Extra.extras] at hx
  | .elseif _ body rest (.otherwise _), _, _, _, _, _, _, _, hx, _, _ => by
    simp [Branches.extras, Extra.extras] at hx
  | .elseif _ body rest (.elseif ..), _, _, _, _, _, _, _, hx, _, _ => by
    simp [Branches.extras, Extra.extras] at hx

end

end Symphony
