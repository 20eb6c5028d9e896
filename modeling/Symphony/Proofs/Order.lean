import Symphony.Proofs.Parts

/-!
# The order of events

The events of a program come in the order of its parts: global variables, functions with a head and
a body each, main part. `Position.Admits` says which event may come where, and the compiler is in a
function exactly where the position is (`Compiler.IsAt`).

**Theorem (`Compiler.RunsBy.invariant`).** What every event keeps, in the position in which it
comes, the whole program keeps. Each event is taken in a state in which all that the compiler holds
is placed and no region is used up (`Compiler.Takes`).
-/

namespace Symphony

/-- Where in a program an event comes. -/
inductive Position
  | start
  | between
  /-- From the name of a function to its variables. -/
  | head
  | body
  | main
  | done
deriving DecidableEq

namespace Position

def InFunction (p : Position) : Prop :=
  p = head ∨ p = body

/-- The events of an array size. -/
def IsSize (e : Event) : Prop :=
  e = .dropSize ∨ ∃ t v, e = .constant t v

theorem IsSize.isQuiet {e : Event} (h : IsSize e) : e.isQuiet = true := by
  rcases h with rfl | ⟨t, v, rfl⟩ <;> rfl

/-- An event may come in a position, and the next one comes in another one. -/
inductive Admits : Event → Position → Position → Prop
  | size {e : Event} {p : Position} : IsSize e → p = start ∨ p = head → Admits e p p
  | globals (vars : List Declaration) : Admits (.declareGlobals vars) start between
  | define (result : Option Ty) (name : String) : Admits (.defineFunction result name) between head
  | locals (params vars : List Declaration) : Admits (.declareLocals params vars) head body
  | inner {e : Event} {p : Position} : e.isInner = true → p = body ∨ p = main → Admits e p p
  | close : Admits .endFunction body between
  | enter : Admits .enterMain between main
  | finish : Admits .finish main done

/-- Events come one after the other, from one position to another. -/
inductive Follows : Position → List Event → Position → Prop
  | nil (p : Position) : Follows p [] p
  | cons {p p' p'' : Position} {e : Event} {es : List Event} :
      Admits e p p' → Follows p' es p'' → Follows p (e :: es) p''

variable {p p' p'' : Position} {xs ys : List Event}

theorem follows_append : Follows p (xs ++ ys) p'' ↔ ∃ p', Follows p xs p' ∧ Follows p' ys p'' := by
  induction xs generalizing p with
  | nil =>
    constructor
    · intro h
      exact ⟨p, .nil p, h⟩
    · rintro ⟨p', ⟨⟩, h⟩
      exact h
  | cons e xs ih =>
    constructor
    · rintro (_ | ⟨he, h⟩)
      obtain ⟨p', h₁, h₂⟩ := ih.1 h
      exact ⟨p', .cons he h₁, h₂⟩
    · rintro ⟨p', _ | ⟨he, h₁⟩, h₂⟩
      exact .cons he (ih.2 ⟨p', h₁, h₂⟩)

theorem Follows.append (h : Follows p xs p') (h' : Follows p' ys p'') : Follows p (xs ++ ys) p'' :=
  follows_append.2 ⟨p', h, h'⟩

/-- Events that stay in a position. -/
theorem follows_of_forall (h : ∀ e ∈ xs, Admits e p p) : Follows p xs p := by
  induction xs with
  | nil => exact .nil p
  | cons e xs ih =>
    exact .cons (h e List.mem_cons_self) (ih fun e' he' => h e' (List.mem_cons_of_mem _ he'))

theorem follows_sizes (gs : List Group) (hp : p = start ∨ p = head) : Follows p (sizesOf gs) p := by
  refine follows_of_forall fun e he => .size ?_ hp
  obtain ⟨g, -, he⟩ := List.mem_flatMap.1 he
  exact Compiler.mem_sizes he

theorem follows_block (b : Block) (hp : p = body ∨ p = main) : Follows p b.events p :=
  follows_of_forall fun e he => .inner (b.isInner e he) hp

end Position

open Position

theorem FunctionTree.follows (f : FunctionTree) : Follows .between f.events .between := by
  refine .cons (.define _ _) ((follows_sizes f.vars (.inr rfl)).append (.cons (.locals _ _) ?_))
  exact (follows_block f.body (.inl rfl)).append (.cons .close (.nil _))

theorem FunctionTree.follows_all (fs : List FunctionTree) :
    Follows .between (fs.flatMap FunctionTree.events) .between := by
  induction fs with
  | nil => exact .nil _
  | cons f fs ih => exact f.follows.append ih

theorem Tree.follows_opening (p : Tree) : Follows .start p.opening .between :=
  (follows_sizes p.globals (.inl rfl)).append (.cons (.globals _) (.nil _))

/-- The events of a tree come in order. -/
theorem Tree.follows (p : Tree) : Follows .start p.events .done := by
  refine (follows_sizes p.globals (.inl rfl)).append (.cons (.globals _) ?_)
  refine (FunctionTree.follows_all p.functions).append (.cons .enter ?_)
  exact (follows_block p.main (.inr rfl)).append (.cons .finish (.nil _))

namespace Compiler

variable {c c' : Compiler} {e : Event} {p p' : Position}

/-- The compiler is in a function if and only if the position is. -/
def IsAt (c : Compiler) (p : Position) : Prop :=
  c.scope ≠ none ↔ p.InFunction

theorem isAt_empty : ({} : Compiler).IsAt .start := by
  simp [IsAt, InFunction]

theorem IsAt.scope_eq_none (h : c.IsAt p) (hp : ¬p.InFunction) : c.scope = none := by
  by_contra hne
  exact hp (h.1 hne)

theorem Acts.scope_of_not (ha : Acts e c c')
    (hdefine : ∀ result name, e ≠ .defineFunction result name) (hend : e ≠ .endFunction) :
    c'.scope = c.scope := by
  rcases ha.scope with hs | ⟨result, name, he, -, -⟩ | ⟨he, -⟩
  · exact hs
  · exact absurd he (hdefine result name)
  · exact absurd he hend

theorem Acts.scope_of_isInner (ha : Acts e c c') (he : e.isInner = true) : c'.scope = c.scope :=
  ha.scope_of_not (by rintro _ _ rfl; cases he) (by rintro rfl; cases he)

theorem Acts.isAt (ha : Acts e c c') (hm : Admits e p p') (hat : c.IsAt p) : c'.IsAt p' := by
  unfold IsAt at hat ⊢
  cases hm with
  | size he =>
    rw [ha.scope_of_isInner (Event.isInner_of_isQuiet he.isQuiet)]
    exact hat
  | inner he =>
    rw [ha.scope_of_isInner he]
    exact hat
  | define =>
    cases ha with
    | defineFunction => simp [define, InFunction]
  | close =>
    cases ha with
    | endFunction => simp [Compiler.close, Compiler.emit, InFunction]
  | locals =>
    rw [ha.scope_of_not (by simp) (by simp), hat]
    simp [InFunction]
  | globals | enter | finish =>
    rw [ha.scope_of_not (by simp) (by simp), hat]
    simp [InFunction]

theorem RunsBy.isAt {es : List Event} (hr : Runs es c c') (hes : Follows p es p') (h : c.IsAt p) :
    c'.IsAt p' := by
  induction hes generalizing c with
  | nil => rwa [runs_nil.1 hr]
  | cons hm _ ih =>
    obtain ⟨d, hd, hrest⟩ := runs_cons.1 hr
    exact ih hrest (hd.isAt hm h)

/-- An event is taken in the position in which it comes. All that the compiler holds before and
after it is placed, and no region is used up. -/
structure Takes (e : Event) (p : Position) (c : Compiler) (p' : Position) (c' : Compiler) :
    Prop where
  admits : Admits e p p'
  acts : Acts e c c'
  tidy : c.Tidy e
  isAt : c.IsAt p
  reached : ∃ rs ss, Reached (fun _ => True) rs c ∧ Reached (fun _ => True) (rs ++ ss) c'
  fits : c'.Fits
  copies : SelfCopies c

namespace Takes

/-- A cell that the event has handed out is in the region that it was handed out from. -/
theorem locate (h : Takes e p c p' c') {s : Sector} {t : Ty} {a : Int} (hlo : c.next s t ≤ a)
    (hhi : a < c'.next s t) : Sector.locate? a = some (s, t) := by
  obtain ⟨rs, ss, hc, hc'⟩ := h.reached
  exact hc.locate h.fits hlo hhi

theorem placed (h : Takes e p c p' c') : ∃ rs bs, Placed (fun _ => True) rs bs c ∧ Roomy rs := by
  obtain ⟨rs, ss, hc, hc'⟩ := h.reached
  have hroomy := hc.roomy (hc.fits hc' h.fits)
  obtain ⟨⟨bs, hp, -⟩, -⟩ := hc
  exact ⟨rs, bs, hp, hroomy⟩

end Takes

/-- What every event keeps in its position is kept by all of them. It may depend on the events so
far. -/
theorem RunsBy.invariant {I : List Event → Position → Compiler → Prop} {xs es : List Event}
    (hr : TidyRuns es c c') (hes : Follows p es p') (hc : ∃ rs, Reached (fun _ => True) rs c)
    (hself : SelfCopies c) (hfits : c'.Fits) (hpos : Event.Sized es)
    (hat : c.IsAt p) (hI : I xs p c)
    (hstep : ∀ {xs e p p' c c'}, e ∈ es → Takes e p c p' c' → I xs p c → I (xs ++ [e]) p' c') :
    I (xs ++ es) p' c' := by
  induction hes generalizing c xs with
  | nil => cases hr; rwa [List.append_nil]
  | @cons p p₁ p' e es hm hes ih =>
    obtain ⟨d, ⟨ha, ht⟩, hrest⟩ := runs_cons.1 hr
    obtain ⟨hpos₁, hpos₂⟩ := List.forall_mem_cons.1 hpos
    obtain ⟨rs, hc⟩ := hc
    obtain ⟨ss, hd⟩ := hc.runs (runs_singleton.2 ⟨ha, ht⟩) trivial (fun _ _ _ => trivial)
      (List.forall_mem_singleton.2 hpos₁)
    obtain ⟨us, hc'⟩ := hd.runs hrest trivial (fun _ _ _ => trivial) hpos₂
    have htakes : Takes e p c p₁ d := ⟨hm, ha, ht, hat, ⟨rs, ss, hc, hd⟩, hd.fits hc' hfits, hself⟩
    obtain ⟨⟨bs, hp, -⟩, -⟩ := hc
    have hI' := ih hrest ⟨_, hd⟩ (ha.selfCopies ht hp hself) hpos₂ (ha.isAt hm hat)
      (hstep List.mem_cons_self htakes hI) fun he => hstep (List.mem_cons_of_mem _ he)
    rwa [List.append_assoc, List.singleton_append] at hI'

end Compiler

open Compiler

/-- What every event of a tree keeps in its position holds after all of them. -/
theorem Tree.invariant {I : List Event → Position → Compiler → Prop} {p : Tree} {c : Compiler}
    (hr : TidyRuns p.events {} c) (hpos : Event.Sized p.events) (hfits : c.Fits)
    (hI : I [] .start {})
    (hstep : ∀ {xs e q q' c c'}, e ∈ p.events → Takes e q c q' c' → I xs q c →
      I (xs ++ [e]) q' c') :
    I p.events .done c :=
  hr.invariant p.follows ⟨[], .empty trivial⟩ selfCopies_empty hfits hpos
    (by simp [IsAt, InFunction]) hI
    hstep

end Symphony
