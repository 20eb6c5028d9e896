import Symphony.Proofs.Readiness

/-!
# Calls of a function to itself

After a call the result is copied to a cell of its own. If a function calls itself before its
return, the place of the result is not known yet. The copy is noted, and it gets its operands when a
result is given back. But what has been noted stays noted: the copy gets operands again whenever
another function gives back a result.

**Theorem (`Compiled.self_call_copy`).** In the end such a copy has the place of the result of its
own function and then those of all functions with a result that are defined later, each with the
cell of the call. So it is a proper copy if and only if no function with a result is defined later.
-/

namespace Symphony

variable {a : Int} {c : Compiler}

namespace Compiler

variable {c' : Compiler} {e : Event} {es : List Event} {name : String} {t : Ty} {i : Nat}
  {os : List (Scope × Option Kind × Option Field)}

/-! ## Results of functions -/

theorem outcomes_define (c : Compiler) (result : Option Ty) (name : String) :
    (c.define result name).outcomes = c.outcomes ++ [(some name, result.map Kind.value, none)] := by
  simp [outcomes, define, Function.opened]

theorem outcomes_return (c : Compiler) (x : Field) :
    (c.updateCurrent fun f => { f with returnPlace := some x }).outcomes =
      c.outcomes.map fun o => if o.1 = c.scope then (o.1, o.2.1, some x) else o := by
  rw [outcomes, outcomes, updateCurrent, List.map_map, List.map_map]
  refine List.map_congr_left fun f _ => ?_
  simp only [Function.comp_apply]
  split <;> rfl

/-- Results become known by the head and by the return of a function only. -/
theorem Acts.outcomes (ha : Acts e c c') (hdefine : ∀ result name, e ≠ .defineFunction result name)
    (hreturn : e ≠ .giveBack) : c'.outcomes = c.outcomes := by
  by_cases he : e.isQuiet = true
  · rw [Compiler.outcomes, Compiler.outcomes, (ha.quiet he).functions]
  · cases ha with
    | declareGlobals hv => exact hv.outcomes.trans (outcomes_updateCurrent fun _ => rfl)
    | declareLocals hq hv =>
      exact (hv.outcomes.trans hq.outcomes).trans (outcomes_updateCurrent fun _ => rfl)
    | endFunction => exact outcomes_updateCurrent fun _ => rfl
    | closeLoop =>
      rw [completeAll_eq]
      rfl
    | defineFunction => exact absurd rfl (hdefine _ _)
    | giveBack => exact absurd rfl hreturn
    | enterMain | finish | breakLoop | testIf | closeIf | elseBranch | markLoop | testLoop
    | leaveLoop => rfl
    | _ => exact absurd rfl he

/-- What is known about the last function, if it has a name of its own. -/
theorem function?_of_last {s : Scope} {k : Option Kind} {place : Option Field}
    (hout : c.outcomes = os ++ [(s, k, place)]) (hos : ∀ o ∈ os, o.1 ≠ s) :
    ∃ f, c.function? s = some f ∧ f.result = k ∧ f.returnPlace = place := by
  obtain ⟨fs, gs, hfunctions, rfl, hgs⟩ := List.map_eq_append_iff.1 hout
  obtain ⟨f, rfl, hf⟩ := List.map_eq_singleton_iff.1 hgs
  have hfirst : fs.find? (·.name == s) = none := by
    refine List.find?_eq_none.2 fun g hg => ?_
    simpa using hos _ (List.mem_map_of_mem hg)
  cases hf
  refine ⟨f, ?_, rfl, rfl⟩
  simp [function?, hfunctions, hfirst]

/-- The function that is being defined is the last one, and only functions with a result give one
back. -/
structure Ordered (c : Compiler) : Prop where
  last : c.scope ≠ none → ∃ os k place, c.outcomes = os ++ [(c.scope, k, place)] ∧
    ∀ o ∈ os, o.1 ≠ c.scope
  results : ∀ o ∈ c.outcomes, o.2.2 ≠ none → o.2.1 ≠ none

/-- A return says where the result of the last function is. -/
theorem Ordered.outcomes_giveBack (h : Ordered c) (ha : Acts .giveBack c c') :
    ∃ os k x rest, c.operands = x :: rest ∧ c.outcomes = os ++ [(c.scope, some k, none)] ∧
      (∀ o ∈ os, o.1 ≠ c.scope) ∧ c'.outcomes = os ++ [(c.scope, some k, some x.place)] ∧
        c'.scope = c.scope ∧
      c'.selfCalls = c.selfCalls ∧ ∀ k, c'.quads[k]? = (c.quads[k]?).map (· ++
        ((c.selfCalls.map fun p => (p.1, [x.place, .num p.2])).filter (·.1 == k)).flatMap
          Prod.snd) := by
  cases ha with
  | @giveBack _ x rest k hplace hscope hoperands hresult =>
    obtain ⟨os, k', place, hout, hos⟩ := h.last hscope
    obtain ⟨f, hf, rfl, rfl⟩ := function?_of_last hout hos
    rw [current, hf] at hplace hresult
    rw [show f.result = some k from hresult, show f.returnPlace = none from hplace] at hout
    refine ⟨os, k, x, rest, hoperands, hout, hos, ?_, ?_, ?_, fun j => getElem?_completeAll _ _ j⟩
    · have hkept : os.map (fun o => if o.1 = c.scope then (o.1, o.2.1, some x.place) else o) = os :=
        (List.map_congr_left fun o ho => if_neg (hos o ho)).trans (List.map_id' os)
      rw [completeAll_eq]
      refine (outcomes_return { c with operands := rest } x.place).trans ?_
      rw [show outcomes { c with operands := rest } = c.outcomes from rfl, hout,
        List.map_append, hkept]
      simp
    · rw [completeAll_eq]
      rfl
    · rw [completeAll_eq]
      rfl

theorem Acts.ordered (ha : Acts e c c') (h : Ordered c) : Ordered c' := by
  by_cases hdefine : ∃ result name, e = .defineFunction result name
  · obtain ⟨result, name, rfl⟩ := hdefine
    cases ha with
    | defineFunction hnew =>
      refine ⟨fun _ => ⟨c.outcomes, _, _, outcomes_define c result name, fun o ho => ?_⟩, ?_⟩
      · obtain ⟨f, hf, rfl⟩ := List.mem_map.1 ho
        show f.name ≠ some name
        simpa using List.find?_eq_none.1 hnew f hf
      · rw [outcomes_define]
        exact List.forall_mem_append.2 ⟨h.results, List.forall_mem_singleton.2 fun hne =>
          absurd rfl hne⟩
  by_cases hreturn : e = .giveBack
  · subst hreturn
    obtain ⟨os, k, x, -, -, hout, hos, hout', hscope, -⟩ := h.outcomes_giveBack ha
    have hresults := h.results
    rw [hout] at hresults
    refine ⟨fun _ => ⟨os, _, _, hscope ▸ hout', hscope ▸ hos⟩, ?_⟩
    rw [hout']
    exact List.forall_mem_append.2
      ⟨(List.forall_mem_append.1 hresults).1, List.forall_mem_singleton.2 fun _ =>
        Option.some_ne_none k⟩
  have hout := ha.outcomes (fun result name he => hdefine ⟨result, name, he⟩) hreturn
  refine ⟨fun hne => ?_, hout ▸ h.results⟩
  rcases ha.scope with hscope | ⟨result, name, he, -⟩ | ⟨-, hscope⟩
  · rw [hout, hscope]
    exact h.last (hscope ▸ hne)
  · exact absurd ⟨result, name, he⟩ hdefine
  · exact absurd hscope hne

theorem RunsBy.ordered (hr : Runs es c c') (h : Ordered c) : Ordered c' := by
  induction hr with
  | nil => exact h
  | cons ha _ ih => exact ih (ha.ordered h)

theorem ordered_empty : Ordered {} where
  last h := absurd rfl h
  results := by simp [Compiler.outcomes, Function.opened]

/-! ## From the head of a function to its return -/

/-- The function that is being defined has a result of this type, and it is not known where. -/
def Owes (name : String) (t : Ty) (c : Compiler) : Prop :=
  c.scope = some name ∧ ∃ os, c.outcomes = os ++ [(some name, some (.value t), none)]

theorem Acts.owes (ha : Acts e c c') (ht : c.Tidy e) (hend : e ≠ .endFunction)
    (hreturn : e ≠ .giveBack) (h : Owes name t c) : Owes name t c' := by
  have hdefine : ∀ result other, e ≠ .defineFunction result other := by
    rintro result other rfl
    have hnone : c.scope = none := ht
    rw [h.1] at hnone
    cases hnone
  refine ⟨?_, by rw [ha.outcomes hdefine hreturn]; exact h.2⟩
  rcases ha.scope with hscope | ⟨result, other, he, -⟩ | ⟨he, -⟩
  · exact hscope.trans h.1
  · exact absurd he (hdefine result other)
  · exact absurd he hend

theorem RunsBy.owes (hr : TidyRuns es c c') (hend : .endFunction ∉ es) (hreturn : .giveBack ∉ es)
    (h : Owes name t c) : Owes name t c' := by
  induction hr with
  | nil => exact h
  | cons ha _ ih =>
    obtain ⟨hend, hends⟩ := not_or.1 (mt List.mem_cons.2 hend)
    obtain ⟨hreturn, hreturns⟩ := not_or.1 (mt List.mem_cons.2 hreturn)
    exact ih hends hreturns (ha.1.owes ha.2 (Ne.symm hend) (Ne.symm hreturn) h)

/-! ## Copies that have been noted -/

/-- A call of a function to itself has been noted. The copy after it has the results of this
function and of the later ones, as far as they are known. -/
structure Noted (name : String) (t : Ty) (i : Nat) (a : Int) (c : Compiler) : Prop where
  mem : (i, a) ∈ c.selfCalls
  copy : ∃ os place later, c.outcomes = os ++ (some name, some (.value t), place) :: later ∧
    c.quads[i]? = some (.word "=" :: copyFields (place.toList ++ later.filterMap (·.2.2)) a)

theorem Acts.mem_noted (ha : Acts e c c') (h : (i, a) ∈ c.selfCalls) : (i, a) ∈ c'.selfCalls := by
  rcases ha.selfCalls with hsame | ⟨_, _, _, _, hadded, -⟩
  · exact hsame ▸ h
  · exact hadded ▸ List.mem_append_left _ h

/-- A return completes what has been noted. -/
theorem Noted.giveBack (h : Noted name t i a c) (ha : Acts .giveBack c c') (hord : Ordered c)
    (hself : SelfCopies c) : Noted name t i a c' := by
  obtain ⟨os, place, later, hout, hcopy⟩ := h.copy
  obtain ⟨os', k, x, -, -, hlast, hos', hout', -, -, hquads⟩ := hord.outcomes_giveBack ha
  refine ⟨ha.mem_noted h.mem, ?_⟩
  have hquad : c'.quads[i]? =
      some (.word "=" :: copyFields ((place.toList ++ later.filterMap (·.2.2)) ++ [x.place]) a) :=
        by
    rw [hquads, hcopy, filter_selfCalls hself.nodup h.mem, ← copyFields_append]
    rfl
  -- the function that gives back is this one or the last of the later ones
  rcases List.eq_nil_or_concat later with rfl | ⟨init, o, rfl⟩
  · obtain ⟨rfl, heq⟩ := List.append_inj' (hout.symm.trans hlast) rfl
    obtain ⟨hscope, hk, rfl⟩ : some name = c.scope ∧ some (Kind.value t) = some k ∧
        place = none := by
      simpa using heq
    refine ⟨os, some x.place, [], ?_, hquad⟩
    rw [hout', ← hscope, hk]
  · have hsplit : os ++ (some name, some (.value t), place) :: init ++ [o] = os' ++
        [(c.scope, some k, none)] := by
      simpa using hout.symm.trans hlast
    obtain ⟨rfl, heq⟩ := List.append_inj' hsplit rfl
    obtain rfl := List.singleton_inj.1 heq
    refine ⟨os, place, init ++ [(c.scope, some k, some x.place)], by simpa using hout', ?_⟩
    rw [hquad]
    simp

theorem Acts.noted (ha : Acts e c c') (ht : c.Tidy e) (hord : Ordered c) (hself : SelfCopies c)
    (h : Noted name t i a c) : Noted name t i a c' := by
  by_cases hreturn : e = .giveBack
  · subst hreturn
    exact h.giveBack ha hord hself
  obtain ⟨os, place, later, hout, hcopy⟩ := h.copy
  have hkept := ha.kept ht hcopy (by simp [Quad.Waits]) fun he => absurd he hreturn
  refine ⟨ha.mem_noted h.mem, ?_⟩
  by_cases hdefine : ∃ result name, e = .defineFunction result name
  · obtain ⟨result, other, rfl⟩ := hdefine
    refine ⟨os, place, later ++ [(some other, result.map .value, none)], ?_, by simpa using hkept⟩
    cases ha with
    | defineFunction => rw [outcomes_define, hout]; simp
  · rw [ha.outcomes (fun result name he => hdefine ⟨result, name, he⟩) hreturn]
    exact ⟨os, place, later, hout, hkept⟩

theorem RunsBy.noted {xs : List Event} (hr : TidyRuns es c c') (hxs : TidyRuns xs {} c)
    (h : Noted name t i a c) : Noted name t i a c' := by
  induction hr generalizing xs with
  | nil => exact h
  | @cons e es _ _ _ ha _ ih =>
    exact ih (runs_append.2 ⟨_, hxs, runs_singleton.2 ha⟩)
      (ha.1.noted ha.2 (hxs.plain.ordered ordered_empty) hxs.selfCopies_of_empty h)

/-- A function that owes a result is the last one and has no place for it. -/
theorem Owes.function? (h : Owes name t c) (hord : Ordered c) :
    ∃ f, c.function? (some name) = some f ∧ f.result = some (.value t) ∧ f.returnPlace = none := by
  obtain ⟨hscope, os, hout⟩ := h
  obtain ⟨os', k, place, hlast, hos⟩ := hord.last (by simp [hscope])
  obtain ⟨rfl, -⟩ := List.append_inj' (hlast.symm.trans hout) rfl
  exact function?_of_last hout (hscope ▸ hos)

/-- A function that calls itself before its return notes the copy, which is the last quad of the
call. -/
theorem Acts.noted_of_endCall {rest : List Scope} (ha : Acts (.endCall name) c c')
    (hord : Ordered c) (howes : Owes name t c) (hcalled : c.called = some name :: rest) :
    ∃ i, c'.quads.size = i + 1 ∧ Noted name t i (c.next .locals t) c' := by
  obtain ⟨f, hf, hresult, hplace⟩ := howes.function? hord
  have hout : c'.outcomes = c.outcomes := ha.outcomes (by simp) (by simp)
  obtain ⟨hscope, os, hlast⟩ := howes
  cases ha with
  | callVoid hcalled' hf' _ _ hvoid =>
    obtain ⟨rfl, -⟩ := List.cons.inj (hcalled.symm.trans hcalled')
    obtain rfl := Option.some.inj (hf.symm.trans hf')
    cases hresult.symm.trans hvoid
  | callKnown hcalled' hf' _ _ _ _ hknown =>
    obtain ⟨rfl, -⟩ := List.cons.inj (hcalled.symm.trans hcalled')
    obtain rfl := Option.some.inj (hf.symm.trans hf')
    cases hplace.symm.trans hknown
  | @callSelf _ _ called others g k u hcalled' hf' _ _ hresult' hty =>
    obtain ⟨rfl, -⟩ := List.cons.inj (hcalled.symm.trans hcalled')
    obtain rfl := Option.some.inj (hf.symm.trans hf')
    obtain rfl := Option.some.inj (hresult.symm.trans hresult')
    obtain rfl : t = u := Option.some.inj ((Kind.ty?_value t).symm.trans hty)
    have hsector : variableSector (c.scope == none) = .locals := by
      rw [hscope]
      rfl
    refine ⟨(c.enterFunction (some name) others).quads.size, by simp [emit, push, reserve], ?_,
      os, none, [], hout.trans hlast, by simp [emit, push, reserve, copyFields]⟩
    rw [← hsector]
    exact List.mem_append_right _ List.mem_cons_self

end Compiler

open Compiler

/-- In the end all functions with a result have given it back. -/
theorem Tree.results_known {p : Tree} (hr : TidyRuns p.events {} c) :
    ∀ o ∈ c.outcomes, o.2.1 ≠ none ↔ o.2.2 ≠ none := by
  have hself := hr.selfCopies_of_empty
  have hat : c.IsAt .done := hr.plain.isAt p.follows (by simp [IsAt, Position.InFunction])
  have hscope : c.scope = none := by simpa [IsAt, Position.InFunction] using hat
  intro o ho
  refine ⟨fun hresult hplace => ?_, (hr.plain.ordered ordered_empty).results o ho⟩
  exact hresult (hself.main o ho ((hself.owing o ho hresult hplace).trans hscope))

theorem copyFields_eq_nil {places : List Field} : copyFields places a = [] ↔ places = [] := by
  cases places <;> simp [copyFields]

/-- A noted copy when all results are known. -/
theorem Compiler.Noted.completed {name : String} {t : Ty} {i : Nat} (h : Noted name t i a c)
    (hknown : ∀ o ∈ c.outcomes, o.2.1 ≠ none ↔ o.2.2 ≠ none) :
    ∃ earlier f later r, c.functions = earlier ++ f :: later ∧ f.name = some name ∧
      f.returnPlace = some r ∧
      c.quads[i]? = some (.word "=" :: copyFields (r :: later.filterMap Function.returnPlace) a) ∧
      (copyFields (later.filterMap Function.returnPlace) a = [] ↔
        ∀ g ∈ later, g.result = none) := by
  obtain ⟨os, place, outcomes, hout, hcopy⟩ := h.copy
  obtain ⟨earlier, functions, hfunctions, rfl, hmap⟩ := List.map_eq_append_iff.1 hout
  obtain ⟨f, later, rfl, hf, rfl⟩ := List.map_eq_cons_iff.1 hmap
  obtain ⟨hname, hresult, rfl⟩ : f.name = some name ∧ f.result = some (.value t) ∧
      f.returnPlace = place := by
    simpa using hf
  have hresults : ∀ g ∈ f :: later, g.result ≠ none ↔ g.returnPlace ≠ none := fun g hg =>
    hknown _ (List.mem_map_of_mem (hfunctions ▸ List.mem_append_right _ hg))
  obtain ⟨r, hr⟩ := Option.ne_none_iff_exists'.1
    ((hresults f List.mem_cons_self).1 (by simp [hresult]))
  refine ⟨earlier, f, later, r, hfunctions, hname, hr, ?_, ?_⟩
  · rw [hcopy, hr, List.filterMap_map]
    rfl
  · rw [copyFields_eq_nil, List.filterMap_eq_nil_iff]
    refine forall₂_congr fun g hg => ?_
    exact (not_iff_not.1 (hresults g (List.mem_cons_of_mem _ hg))).symm

/-- These events have been taken when a call of a function to itself ends. The last quad of the call
copies the result: in the end it has the places of the results of the function and of all later
ones, and it is a proper copy if and only if no later function has a result. -/
def Compiled.CollectsResults (line : Nat) (source : String) (before : List Event) (name : String)
    (t : Ty) : Prop :=
  ∃ d d' i earlier f later r, Runs before {} d ∧ Acts (.endCall name) d d' ∧ d'.quads.size = i + 1 ∧
    (Compiled.ofSource line source).state.functions = earlier ++ f :: later ∧
    f.name = some name ∧ f.returnPlace = some r ∧
    (Compiled.ofSource line source).state.quads[i]? = some
      (.word "=" :: copyFields (r :: later.filterMap Function.returnPlace) (d.next .locals t)) ∧
    ((Compiled.ofSource line source).state.quads[i]? =
      some [.word "=", r, .num (d.next .locals t)] ↔ ∀ g ∈ later, g.result = none)

theorem Compiled.self_call_copy {line : Nat} {source name : String} {t : Ty} {xs ys zs : List Event}
    (h : (Compiled.ofSource line source).rejection = none)
    (hsplit : (Trace.ofSource line source).events =
      xs ++ .defineFunction (some t) name :: (ys ++ .endCall name :: zs))
    (hopen : .endFunction ∉ ys) (hreturn : .giveBack ∉ ys) :
    CollectsResults line source (xs ++ .defineFunction (some t) name :: ys) name t := by
  obtain ⟨p, hp, hruns⟩ := Compiled.exists_runs h
  have htidy := (p.laidOut hruns).1
  have hknown := p.results_known htidy
  have hevents : p.events = (xs ++ .defineFunction (some t) name :: ys) ++ .endCall name :: zs := by
    rw [hp, hsplit]
    simp
  rw [hevents] at htidy
  obtain ⟨d, hbefore, hrest⟩ := runs_append.1 htidy
  obtain ⟨d', hcall, hafter⟩ := runs_cons.1 hrest
  have hd : Runs (xs ++ .defineFunction (some t) name :: ys) {} d := hbefore.imp fun _ _ _ ha =>
      ha.1
  have howes : Owes name t d := by
    obtain ⟨d₁, -, hinside⟩ := runs_append.1 hbefore
    obtain ⟨d₂, ⟨hdefine, -⟩, hys⟩ := runs_cons.1 hinside
    refine hys.owes hopen hreturn ?_
    cases hdefine with
    | defineFunction => exact ⟨rfl, d₁.outcomes, outcomes_define d₁ _ name⟩
  obtain ⟨rest, hcalled, -⟩ := (ready hd hevents).called name rfl
  obtain ⟨i, hi, hnoted⟩ := hcall.1.noted_of_endCall (hd.ordered ordered_empty) howes hcalled
  have hnoted := hafter.noted (runs_append.2 ⟨d, hbefore, runs_singleton.2 hcall⟩) hnoted
  obtain ⟨earlier, f, later, r, hfunctions, hname, hr, hquad, hiff⟩ := hnoted.completed hknown
  refine ⟨d, d', i, earlier, f, later, r, hd, hcall.1, hi, hfunctions, hname, hr, hquad, ?_⟩
  rw [hquad, ← hiff]
  simp [copyFields]

/-- Another function with a result is defined later. -/
theorem Compiled.self_call_copy_two :
    let source := "program p; fun int f() { f(); return 1; } fun int g() { return 2; }"
    (Compiled.ofSource 1 source).rejection = none ∧
      CollectsResults 1 source [.declareGlobals [], .defineFunction (some .int) "f",
        .declareLocals [] [], .beginCall "f"] "f" .int := by
  intro source
  have hcompiled : (Compiled.ofSource 1 source).rejection = none := by
    decide +kernel
  let head : List Event := [.declareLocals [] [], .beginCall "f"]
  let rest : List Event := [.constant .int (.int 1), .giveBack, .endFunction,
    .defineFunction (some .int) "g", .declareLocals [] [], .constant .int (.int 2), .giveBack,
    .endFunction, .enterMain, .finish]
  have hsplit : (Trace.ofSource 1 source).events = [.declareGlobals []] ++
      .defineFunction (some .int) "f" :: (head ++ .endCall "f" :: rest) := by
    decide +kernel
  exact ⟨hcompiled, Compiled.self_call_copy hcompiled hsplit (by decide) (by decide)⟩

end Symphony
