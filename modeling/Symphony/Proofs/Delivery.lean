import Symphony.Proofs.Blocks
import Symphony.Proofs.Frames
import Symphony.Proofs.Monotone
import Symphony.Proofs.SelfCalls
import Symphony.Proofs.Temporals

/-!
# Results of calls

A return adds no code. It says where the result of its function is, and the caller reads this place
after the function has been left. So the result is what the place holds at the end of the function,
and if the place is an element of a local array, it is what the caller has in its own cell.

**Theorem (`Compiled.results_delivered`).** This holds for every call in every run of an accepted
source: the cell of the result receives a value if and only if the copy after the call is a proper
one and the place has this value then. If no code follows the return, the place has the value that
it had when the return was reached.
-/

namespace Symphony

variable {inner m m' : Machine} {f : Function} {i j : Int} {p : Program} {t : Ty}

namespace Compiler

variable {c c' d : Compiler} {e : Event} {es xs ys : List Event} {name : String} {s : Scope}
  {kind : Option Kind} {place : Option Field} {x : Field} {q : Nat}

/-! ## Returns -/

/-- A return of a function: the operand that is given back, and the index at which the code goes
on. -/
def Returns (es : List Event) (name : String) (r : Field) (q : Nat) : Prop :=
  ∃ before later c x rest, es = before ++ .giveBack :: later ∧ Runs before {} c ∧
    c.scope = some name ∧ c.operands = x :: rest ∧ x.place = r ∧ c.quads.size = q

theorem Returns.append (h : Returns xs name x q) (ys : List Event) :
    Returns (xs ++ ys) name x q := by
  obtain ⟨before, later, c, y, rest, rfl, h⟩ := h
  exact ⟨before, later ++ ys, c, y, rest, by simp, h⟩

/-- The result of a function has a place since a return. -/
theorem Acts.mem_outcomes_iff (ha : Acts e c c') (hord : Ordered c) :
    (s, kind, some x) ∈ c'.outcomes ↔ (s, kind, some x) ∈ c.outcomes ∨
      e = .giveBack ∧ c.scope = s ∧ (s, kind, none) ∈ c.outcomes ∧
        ∃ y rest, c.operands = y :: rest ∧ y.place = x := by
  by_cases hreturn : e = .giveBack
  · subst hreturn
    obtain ⟨os, k, y, rest, hoperands, hout, hos, hout', -⟩ := hord.outcomes_giveBack ha
    rw [hout, hout', hoperands, List.mem_append, List.mem_append, List.mem_append,
      List.mem_singleton, List.mem_singleton, List.mem_singleton]
    constructor
    · rintro (hmem | hmem)
      · exact .inl (.inl hmem)
      · cases hmem
        exact .inr ⟨rfl, rfl, .inr rfl, y, rest, rfl, rfl⟩
    · rintro ((hmem | hmem) | ⟨-, rfl, hmem | hmem, y', rest', heq, rfl⟩)
      · exact .inl hmem
      · cases hmem
      · exact absurd rfl (hos _ hmem)
      · cases hmem
        cases heq
        exact .inr rfl
  · by_cases hdefine : ∃ result name, e = .defineFunction result name
    · obtain ⟨result, name, rfl⟩ := hdefine
      cases ha with
      | defineFunction => simp [outcomes_define]
    · rw [ha.outcomes (fun result name he => hdefine ⟨result, name, he⟩) hreturn]
      simp [hreturn]

theorem RunsBy.mem_outcomes (hr : TidyRuns es c c') (hord : Ordered c)
    (h : (s, kind, some x) ∈ c.outcomes) : (s, kind, some x) ∈ c'.outcomes := by
  induction hr with
  | nil => exact h
  | cons ha _ ih => exact ih (ha.1.ordered hord) ((ha.1.mem_outcomes_iff hord).2 (.inl h))

theorem RunsBy.ordered_of_tidy (hr : TidyRuns es {} c) : Ordered c :=
  hr.plain.ordered ordered_empty

theorem exists_returns (hxs : TidyRuns xs {} d) (hys : TidyRuns ys d c)
    (h : (some name, kind, some x) ∈ c.outcomes) :
    (some name, kind, some x) ∈ d.outcomes ∨ ∃ q, d.quads.size ≤ q ∧
      Returns (xs ++ ys) name x q := by
  induction hys generalizing xs with
  | nil => exact .inl h
  | @cons e ys d d' c he _ ih =>
    rcases ih (runs_append.2 ⟨d, hxs, runs_singleton.2 he⟩) h with hmem | ⟨q, hq, hreturns⟩
    · rcases (he.1.mem_outcomes_iff hxs.ordered_of_tidy).1 hmem with hmem | ⟨rfl, hscope, -, y,
        rest, hy, rfl⟩
      · exact .inl hmem
      · exact .inr ⟨_, Nat.le_refl _, xs, ys, d, y, rest, rfl, hxs.plain, hscope, hy, rfl, rfl⟩
    · exact .inr ⟨q, Nat.le_trans he.1.size_le hq, by simpa using hreturns⟩

/-- Around a return: the function has had no result before, and has one then. -/
theorem Returns.split (h : Returns es name x q) (hr : TidyRuns es {} c) :
    ∃ before later d d', es = before ++ .giveBack :: later ∧ TidyRuns before {} d ∧
      TidyRuns (before ++ [.giveBack]) {} d' ∧ TidyRuns later d' c ∧ d.quads.size = q ∧
      d.operands.head?.map Operand.place = some x ∧
        (∀ kind y, (some name, kind, some y) ∉ d.outcomes) ∧
      ∃ kind, (some name, kind, some x) ∈ d'.outcomes := by
  obtain ⟨before, later, d, y, rest, rfl, hd, hscope, hy, rfl, rfl⟩ := h
  obtain ⟨d₁, hbefore, hrest⟩ := runs_append.1 hr
  obtain ⟨d', he, hlater⟩ := runs_cons.1 hrest
  obtain rfl := RunsBy.unique hd hbefore.plain
  obtain ⟨os, k, y', rest', hy', hout, hos, hout', -⟩ :=
    hbefore.ordered_of_tidy.outcomes_giveBack he.1
  obtain ⟨rfl, rfl⟩ : y' = y ∧ rest' = rest := by simpa using hy'.symm.trans hy
  rw [hscope] at hout hos hout'
  refine ⟨before, later, d, d', rfl, hbefore, runs_append.2 ⟨d, hbefore, runs_singleton.2 he⟩,
    hlater, rfl, by rw [hy]; rfl, ?_, some k, ?_⟩
  · intro kind z hmem
    rw [hout, List.mem_append, List.mem_singleton] at hmem
    rcases hmem with hmem | hmem
    · exact hos _ hmem rfl
    · cases hmem
  · rw [hout']
    simp

theorem Returns.le_size (h : Returns es name x q) (hr : TidyRuns es {} c) : q ≤ c.quads.size := by
  obtain ⟨before, later, d, d', rfl, hd, -, -, rfl, -⟩ := h.split hr
  obtain ⟨d₁, hd₁, hrest⟩ := runs_append.1 hr
  obtain rfl := hd.plain.unique hd₁.plain
  exact hrest.size_le

theorem RunsBy.mem_outcomes_of_prefix (hys : TidyRuns ys {} c) (hxs : TidyRuns xs {} d)
    (h : xs <+: ys) (hmem : (s, kind, some x) ∈ d.outcomes) : (s, kind, some x) ∈ c.outcomes := by
  obtain ⟨zs, rfl⟩ := h
  obtain ⟨d', hd', hzs⟩ := runs_append.1 hys
  obtain rfl := hxs.plain.unique hd'.plain
  exact hzs.mem_outcomes hxs.ordered_of_tidy hmem

/-- A function has one return: a second one would find a result. -/
theorem Returns.unique {x' : Field} {q' : Nat} (h : Returns es name x q)
    (h' : Returns es name x' q') (hr : TidyRuns es {} c) : x = x' ∧ q = q' := by
  obtain ⟨b, l, d, d₁, hsplit, hd, hd₁, -, rfl, hx, hnew, kind, hmem⟩ := h.split hr
  obtain ⟨b', l', d', d₁', hsplit', hd', hd₁', -, rfl, hx', hnew', kind', hmem'⟩ := h'.split hr
  have hprefix : b ++ [.giveBack] <+: es := ⟨l, by simp [hsplit]⟩
  have hprefix' : b' ++ [.giveBack] <+: es := ⟨l', by simp [hsplit']⟩
  have hle : ¬b.length < b'.length := fun hlt =>
    hnew' kind x (hd'.mem_outcomes_of_prefix hd₁ (List.prefix_of_prefix_length_le hprefix
      ((List.prefix_append _ _).trans hprefix') (by simpa using hlt)) hmem)
  have hge : ¬b'.length < b.length := fun hlt =>
    hnew kind' x' (hd.mem_outcomes_of_prefix hd₁' (List.prefix_of_prefix_length_le hprefix'
      ((List.prefix_append _ _).trans hprefix) (by simpa using hlt)) hmem')
  obtain ⟨rfl, -⟩ := List.append_inj (hsplit.symm.trans hsplit') (by omega)
  obtain rfl := hd.plain.unique hd'.plain
  exact ⟨Option.some.inj (hx.symm.trans hx'), rfl⟩

/-! ## Copies after calls -/

theorem eq_of_mem_outcomes (hnodup : (c.functions.map Function.name).Nodup)
    (hmem : (s, kind, place) ∈ c.outcomes) (hf : c.function? s = some f) :
    f.result = kind ∧ f.returnPlace = place := by
  obtain ⟨g, hg, heq⟩ := List.mem_map.1 hmem
  obtain ⟨hname, rfl, rfl⟩ : g.name = s ∧ g.result = kind ∧ g.returnPlace = place := by
    simpa using heq
  obtain rfl : g = f := List.inj_on_of_nodup_map hnodup hg (List.mem_of_find?_eq_some hf)
    (hname.trans (name_of_function? hf).symm)
  exact ⟨rfl, rfl⟩

/-- The results of functions have types with names. -/
theorem RunsBy.values (hr : Runs es c c') (hord : Ordered c)
    (h : ∀ o ∈ c.outcomes, ∀ k, o.2.1 = some k → ∃ t, k = .value t) :
    ∀ o ∈ c'.outcomes, ∀ k, o.2.1 = some k → ∃ t, k = .value t := by
  induction hr with
  | nil => exact h
  | @cons e es c c' c'' ha _ ih =>
    refine ih (ha.ordered hord) ?_
    by_cases hreturn : e = .giveBack
    · subst hreturn
      obtain ⟨os, k, y, rest, -, hout, -, hout', -⟩ := hord.outcomes_giveBack ha
      rw [hout, List.forall_mem_append, List.forall_mem_singleton] at h
      rw [hout', List.forall_mem_append, List.forall_mem_singleton]
      exact h
    · by_cases hdefine : ∃ result name, e = .defineFunction result name
      · obtain ⟨result, name, rfl⟩ := hdefine
        cases ha with
        | defineFunction =>
          rw [outcomes_define, List.forall_mem_append, List.forall_mem_singleton]
          refine ⟨h, fun k hk => ?_⟩
          obtain ⟨t, -, ht⟩ := Option.map_eq_some_iff.1 hk
          exact ⟨t, ht.symm⟩
      · rwa [ha.outcomes (fun result name he => hdefine ⟨result, name, he⟩) hreturn]

theorem mem_outcomes_of_function? (hf : c.function? s = some f) :
    (s, f.result, f.returnPlace) ∈ c.outcomes := by
  rw [← name_of_function? hf]
  exact List.mem_map.2 ⟨f, List.mem_of_find?_eq_some hf, rfl⟩

/-- A function whose result has no place yet is the one that is being defined. -/
theorem Owes.of_function? (hr : TidyRuns es {} c) (hf : c.function? (some name) = some f)
    (hres : f.result ≠ none) (hplace : f.returnPlace = none) : ∃ t, Owes name t c := by
  have hmem := mem_outcomes_of_function? hf
  have hscope : some name = c.scope := hr.selfCopies_of_empty.owing _ hmem hres hplace
  obtain ⟨k, hk⟩ := Option.ne_none_iff_exists'.1 hres
  obtain ⟨t, rfl⟩ := hr.plain.values ordered_empty (by simp [outcomes, Function.opened]) _
    hmem k hk
  obtain ⟨os, k', place, hlast, hos⟩ := hr.ordered_of_tidy.last (by simp [← hscope])
  obtain ⟨g, hg, rfl, rfl⟩ := function?_of_last hlast hos
  rw [← hscope] at hlast hg
  obtain rfl := Option.some.inj (hf.symm.trans hg)
  exact ⟨t, hscope.symm, os, by rw [hlast, hk, hplace]⟩

/-- In the end the result of a call is copied from the place that the return has named. The copy has
been completed with other places too if the call comes before the return and another function with a
result is defined later. -/
theorem RunsBy.result_copied (hr : TidyRuns es {} c)
    (hknown : ∀ o ∈ c.outcomes, o.2.1 ≠ none ↔ o.2.2 ≠ none) {k : Nat} {F : Function}
    (hq : c.quads[k]? = some [.word "GOSUB", .word name]) (hF : c.function? (some name) = some F)
    (hres : F.result ≠ none) :
    ∃ r q a gs earlier later, F.returnPlace = some r ∧ Returns es name r q ∧
      c.quads[k + 1]? = some (.word "=" :: r :: .num a :: gs) ∧
        c.functions = earlier ++ F :: later ∧
      (gs = [] ↔ q ≤ k ∨ ∀ g ∈ later, g.result = none) := by
  obtain ⟨_, _, hp⟩ := hr.exists_placed
  have hsame {kind place} (hmem : (some name, kind, place) ∈ c.outcomes) :=
    eq_of_mem_outcomes hp.nodup hmem hF
  -- the call that added the quad
  obtain ⟨e, xs, ys, d, d', rfl, hxs, he, hys, hlo, hhi⟩ :=
    hr.born (Nat.zero_le k) (Array.getElem?_eq_some_iff.1 hq).1
  have hxs' : TidyRuns (xs ++ [e]) {} d' := runs_append.2 ⟨d, hxs, runs_singleton.2 he⟩
  obtain ⟨_, _, hpd⟩ := hxs.exists_placed
  obtain ⟨_, _, hpd'⟩ := hxs'.exists_placed
  have hq' := hys.quad_before hpd' (by decide) hhi hq
  obtain ⟨w, rfl⟩ := he.1.endCall_of_call hlo hq'
  obtain ⟨s, F₀, hcalled, hF₀, htext, hcopy⟩ := he.1.copy_of_call hlo hq'
  obtain ⟨n, rfl⟩ := Option.ne_none_iff_exists'.1 (hpd.called s (List.mem_of_mem_head? hcalled))
  obtain rfl : name = n := by simpa [Scope.text] using htext
  obtain ⟨F₁, hF₁, -, hres₁, -⟩ := he.1.keepsTable.kept hF₀
  obtain ⟨F₂, hF₂, -, hres₂⟩ := hys.function hF₁
  obtain rfl := Option.some.inj (hF.symm.trans hF₂)
  obtain ⟨t, a, -, -, hcopy⟩ := hcopy (by rwa [← hres₁, ← hres₂])
  rcases hcopy with ⟨r, hr₀, hquad⟩ | ⟨hnone, hself, hquad⟩
  · -- the function has given back its result before
    have hmem := mem_outcomes_of_function? hF₀
    rw [hr₀] at hmem
    have hplace := (hsame (hr.mem_outcomes_of_prefix hxs (List.prefix_append _ _) hmem)).2
    obtain ⟨q, -, hreturns⟩ := (exists_returns (.nil _) hxs hmem).resolve_left
      (by simp [outcomes, Function.opened])
    have hle : q ≤ k := Nat.le_trans (hreturns.le_size hxs) hlo
    have hnew : ∀ y ∈ d'.selfCalls, y.1 ≠ k + 1 := by
      intro y hy hyk
      rcases he.1.selfCalls with hs | ⟨i, b, -, -, hs, -, hi, -⟩
      · have := hxs.selfCopies_of_empty.lt (hs ▸ hy)
        omega
      · rcases List.mem_append.1 (hs ▸ hy) with hy | hy
        · have := hxs.selfCopies_of_empty.lt hy
          omega
        · obtain rfl := List.mem_singleton.1 hy
          rw [show i = k + 1 from hyk, hquad] at hi
          cases hi
    obtain ⟨earlier, later, hfunctions⟩ := List.append_of_mem (List.mem_of_find?_eq_some hF)
    exact ⟨r, q, a, [], earlier, later, hplace, hreturns.append _, hys.copy_kept hquad hnew,
      hfunctions, iff_of_true rfl (.inl hle)⟩
  · -- the copy waits for the return
    obtain ⟨u, howes⟩ := Owes.of_function? hxs hF₀ (by rwa [← hres₁, ← hres₂]) hnone
    have hout : d'.outcomes = d.outcomes := he.1.outcomes (by simp) (by simp)
    obtain ⟨-, os, hlast⟩ := howes
    have hnoted : Noted name u (k + 1) a d' := ⟨hself, os, none, [], hout.trans hlast, hquad⟩
    obtain ⟨earlier, f, later, r, hfunctions, hname, hplace, hquad', hiff⟩ :=
      (hys.noted hxs' hnoted).completed hknown
    have hf : f ∈ c.functions := by simp [hfunctions]
    obtain rfl : f = F := List.inj_on_of_nodup_map hp.nodup hf (List.mem_of_find?_eq_some hF)
      (hname.trans (name_of_function? hF).symm)
    have hmem := mem_outcomes_of_function? hF
    rw [hplace] at hmem
    have hearlier : (some name, f.result, some r) ∉ d'.outcomes := by
      intro hmem
      have hold : (some name, some (.value u), none) ∈ d'.outcomes := by simp [hout, hlast]
      have hsome := (eq_of_mem_outcomes hpd'.nodup hmem hF₁).2
      have hnone := (eq_of_mem_outcomes hpd'.nodup hold hF₁).2
      cases hsome.symm.trans hnone
    obtain ⟨q, hle, hreturns⟩ := (exists_returns hxs' hys hmem).resolve_left hearlier
    refine ⟨r, q, a, _, earlier, later, hplace, by simpa using hreturns, hquad', hfunctions,
      hiff.trans ?_⟩
    rw [or_iff_right (by omega)]

end Compiler

/-! ## The place of a result after a call -/

theorem Memory.read_of_not_locals {m : Memory} {b : Bank} {s : Slot}
    (h : ∀ t, Sector.locate? s.base ≠ some (.locals, t)) :
    Memory.read { m with locals := b } s = m.read s := by
  rw [read, read]
  cases hloc : Sector.locate? s.base with
  | none => rfl
  | some place =>
    obtain ⟨sector, t⟩ := place
    cases sector with
    | locals => exact absurd hloc (h t)
    | globals | temporals | constants => rfl

theorem Memory.read_of_locals {m n : Memory} {s : Slot}
    (hs : Sector.locate? s.base = some (.locals, t)) (h : m.locals = n.locals) :
    m.read s = n.read s := by
  rw [read, read, hs]
  simp only [PerSector.get, h]

namespace Machine

variable {F : Function} {r : Field}

/-- What the caller finds in the place of a result: what the function has left there, but for an
element of an array among the local cells. Of these the caller has its own. -/
def handed (m inner : Machine) (r : Field) : Except Fault Value := do
  let s ← inner.memory.resolve (.ofField r.text)
  match r, Sector.locate? s.base with
  | .pointer _, some (.locals, _) => m.memory.read s
  | _, _ => inner.memory.read s

theorem load_returned_num {a : Int} {s : Sector} (ha : Sector.locate? a = some (s, t))
    (hplace : F.returnPlace = some (.num a)) (hty : F.result.bind Kind.ty? = some t)
    (hfills : inner.memory.locals.Fills m.memory.locals) :
    (m.returned inner F).memory.read (.ofInt a) = inner.memory.read (.ofInt a) := by
  by_cases hs : s = .locals
  · subst hs
    rw [returned, Routine.read_restored ha fun _ => hty, if_pos hplace, Memory.readOr,
      Memory.read_eq ha, Memory.read_eq ha]
    cases hcell : ((inner.memory.get .locals).get t)[Slot.ofInt a]? with
    | some v => rfl
    | none =>
      -- the caller has no value in this cell either
      have hsaved : ((m.memory.get .locals).get t)[Slot.ofInt a]? = none := by
        by_contra hsome
        exact hfills t _ hsome hcell
      rw [hsaved]
  · refine Memory.read_of_not_locals fun u hu => hs ?_
    rw [show (Slot.ofInt a).base = a from rfl, ha] at hu
    cases hu
    rfl

theorem load_returned (hr : r.IsOf t) (hplace : F.returnPlace = some r)
    (hty : F.result.bind Kind.ty? = some t) (hfills : inner.memory.locals.Fills m.memory.locals) :
    (m.returned inner F).memory.load (.ofField r.text) = m.handed inner r := by
  cases r with
  | word => cases hr
  | num a =>
    obtain ⟨s, ha⟩ := hr
    have hlength := Sector.natAbs_lt_tooLong ha
    rw [Memory.load_num hlength, load_returned_num ha hplace hty hfills, handed,
      Reference.ofField_num hlength]
    rfl
  | pointer a =>
    have ha : Sector.locate? a = some (.temporals, t) := hr
    have hcell : (m.returned inner F).memory.read (.ofInt a) = inner.memory.read (.ofInt a) :=
      Memory.read_of_not_locals fun u hu => by
        rw [show (Slot.ofInt a).base = a from rfl, ha] at hu
        cases hu
    have hresolve : (m.returned inner F).memory.resolve (.ofField (Field.pointer a).text) =
        inner.memory.resolve (.ofField (Field.pointer a).text) := by
      rw [Reference.ofField_pointer (Sector.natAbs_lt_tooLong ha)]
      exact congrArg (Except.bind · Slot.ofValue) hcell
    rw [Memory.load, handed, hresolve]
    cases inner.memory.resolve (.ofField (Field.pointer a).text) with
    | error => rfl
    | ok s =>
      by_cases hs : ∃ u, Sector.locate? s.base = some (.locals, u)
      · obtain ⟨u, hu⟩ := hs
        have hlocals : (m.returned inner F).memory.locals = m.memory.locals := by
          simp [returned, Routine.restored, Routine.leftBehind, hplace]
        simpa [bind, Except.bind, hu] using Memory.read_of_locals hu hlocals
      · have hread : (m.returned inner F).memory.read s = inner.memory.read s :=
          Memory.read_of_not_locals fun u hu => hs ⟨u, hu⟩
        simp only [bind, Except.bind, hread]
        split
        · rename_i u _ hu
          exact absurd ⟨u, hu⟩ hs
        · rfl

end Machine

/-! ## The copy after a call -/

namespace Program

variable {k l : Int}

/-- A step copies this value to a cell. -/
def Receives (p : Program) (j : Int) (m : Machine) (a : Int) (v : Value) : Prop :=
  ∃ m', p.step j m = .next (j + 1) m' ∧ m'.memory.read (.ofInt a) = .ok v

/-- A copy that was completed more than once copies nothing. -/
theorem receives_iff {r : String} {a : Int} {gs : List String} {s : Sector}
    (ha : Sector.locate? a = some (s, t))
    (hq : p.quad? j = some ("=" :: r :: (Field.num a).text :: gs)) {v : Value} :
    p.Receives j m a v ↔ gs = [] ∧ m.memory.load (.ofField r) = .ok v := by
  have hstore : ∀ v, ∃ n, m.memory.store (.ofField (Field.num a).text) v = .ok n ∧
      n.read (.ofInt a) = .ok v := by
    intro v
    have hwrite : ∃ n, m.memory.write (.ofInt a) v = .ok n := by
      rw [Memory.write, show (Slot.ofInt a).base = a from rfl, ha]
      exact ⟨_, rfl⟩
    obtain ⟨n, hn⟩ := hwrite
    exact ⟨n, by rw [Memory.store_num (Sector.natAbs_lt_tooLong ha), hn], Memory.read_write_self hn⟩
  constructor
  · rintro ⟨m', hstep, hread⟩
    obtain ⟨x, d, hfields⟩ := step_copy_ok hq hstep
    obtain rfl : gs = [] := by simpa using congrArg List.length hfields
    refine ⟨rfl, ?_⟩
    rw [step_copy hq] at hstep
    obtain ⟨-, memory, hmemory, rfl⟩ := next_eq_next hstep
    cases hload : m.memory.load (.ofField r) with
    | error => simp [hload, bind, Except.bind] at hmemory
    | ok w =>
      obtain ⟨n, hn, hw⟩ := hstore w
      obtain rfl : n = memory := by simpa [hload, bind, Except.bind, hn] using hmemory
      rw [← hw, hread]
  · rintro ⟨rfl, hload⟩
    obtain ⟨n, hn, hread⟩ := hstore v
    refine ⟨{ m with memory := n }, ?_, hread⟩
    rw [step_copy hq, hload]
    simp [bind, Except.bind, hn, Machine.next]

/-- The function of a call stands at an index, and none that it has called. -/
def Passes (p : Program) (i : Int) (m : Machine) (l : Int) (inner : Machine) (q : Int)
    (m' : Machine) : Prop :=
  ∃ k m₁, p.step i m = .next k m₁ ∧ p.Within m.records.length k m₁ q m' ∧
    p.Within m.records.length q m' l inner ∧ m'.records.length = m.records.length + 1

/-- A function is left when it stands at its end. -/
theorem Passes.eq_of_endproc {q : Int} {name : String} (h : p.Passes i m l inner q m')
    (hq : p.quad? q = some ["ENDPROC", name]) : m' = inner := by
  obtain ⟨-, -, -, -, hwithin, hlength⟩ := h
  cases hwithin with
  | refl => rfl
  | step _ hstep hrest =>
    obtain ⟨f, saved, records, caller, returns, -, hrecords, -, -, rfl⟩ := step_endproc hq hstep
    have hlt := hrest.lt
    rw [hrecords, List.length_cons] at hlength
    simp only at hlt
    omega

/-- At the end of a call the caller is the last one that was suspended. -/
theorem Call.records (h : p.Call i m l inner j m') :
    inner.records = m.memory.locals :: m.records := by
  obtain ⟨k, m₁, hfirst, hwithin, hlast, hlength⟩ := h
  obtain ⟨bs, as, -, hrecords, -⟩ := (Machine.Above.entered hfirst hwithin.lt).2.within hwithin
  have hshort : inner.records.length ≤ m.records.length + 1 := by
    rcases step_calls hlast with hcalls | ⟨-, -, -, hrecords', -⟩ |
      ⟨_, _, _, _, records, _, _, -, -, hrecords', -, -, rfl⟩
    · rw [← (Prod.mk.inj hcalls).1]
      omega
    · rw [hrecords', List.length_cons] at hlength
      omega
    · rw [hrecords', List.length_cons]
      exact Nat.succ_le_succ (Nat.le_of_eq hlength)
  rw [hrecords, List.length_append, List.length_cons] at hshort
  obtain rfl := List.eq_nil_of_length_eq_zero (show bs.length = 0 by omega)
  exact hrecords

end Program

namespace Machine.Arises

theorem step (h : m.Arises) (hstep : p.step i m = .next j m') : m'.Arises := by
  obtain ⟨name, fields, next, -, hexec, -⟩ := Program.step_next hstep
  have hm' := h.execute p i name fields
  rwa [hexec] at hm'

theorem within {d : Nat} (h : m.Arises) (hwithin : p.Within d i m j m') : m'.Arises := by
  induction hwithin with
  | refl => exact h
  | step _ hstep _ ih => exact ih (h.step hstep)

end Machine.Arises

/-- A caller has saved no cell that the function that it has called does not have. -/
theorem Program.Call.fills {l : Int} (h : p.Call i m l inner j m') (hm : m.Arises) :
    inner.memory.locals.Fills m.memory.locals := by
  have hrecords := h.records
  obtain ⟨k, m₁, hfirst, hwithin, -, -⟩ := h
  have hlayered := ((hm.step hfirst).within hwithin).layered
  rw [Machine.Layered, hrecords] at hlayered
  exact hlayered.1

/-! ## Sources -/

namespace Compiled

variable {line : Nat} {source : String}

/-- In every run of a source and for every call of a function with a result that has come to its
end: the function has one return, and the code after the call copies its operand to a cell. The cell
receives the value that the operand has when the function is left, looked up as `Machine.handed`
says. If no code follows the return, this is when the return is reached. A copy in a function that
calls itself before its return fails if another function with a result is defined later. -/
def DeliversResults (line : Nat) (source : String) : Prop :=
  let c := (ofSource line source).state
  let p := (ofSource line source).program
  ∀ randoms inputs n k m, (ofSource line source).play randoms inputs n = (.unfinished k, m) →
  ∀ l inner j m', p.Call k m l inner j m' →
  ∀ name F, c.quads[k.toNat]? = some [.word "GOSUB", .word name] →
    c.function? (some name) = some F → F.result ≠ none →
    ∃ r q a gs earlier later,
      (∀ r' q', Compiler.Returns (Trace.ofSource line source).events name r' q' ↔ r' = r ∧ q' = q) ∧
      j = k + 1 ∧ c.quads[k.toNat + 1]? = some (.word "=" :: r :: .num a :: gs) ∧
      c.functions = earlier ++ F :: later ∧ (gs = [] ↔ q ≤ k ∨ ∀ g ∈ later, g.result = none) ∧
      (∀ v, p.Receives j m' a v ↔ gs = [] ∧ m.handed inner r = .ok v) ∧
      ∀ m₁, p.Passes k m l inner q m₁ → c.quads[q]? = some [.word "ENDPROC", .word name] →
        m₁ = inner

/-- A result is what the operand of the return stands for at the end of the function. -/
theorem results_delivered (h : (ofSource line source).rejection = none)
    (hroom : HasRoom line source) : DeliversResults line source := by
  intro randoms inputs n i m hplay l inner j m' hcall name F hquad hF hres
  obtain ⟨rs, bs, hsound⟩ := exists_isSound h hroom
  obtain ⟨log, hbooked⟩ := exists_booked h hroom
  obtain ⟨tree, htree, hruns⟩ := exists_runs h
  have htidy := (tree.laidOut hruns).1
  obtain ⟨regions, main, hr, -⟩ := exists_routed h
  have hsteps := Program.run_eq_unfinished.1 hplay
  have hm : m.Arises := hsteps.invariant (I := fun _ m => m.Arises) (fun hstep h => h.step hstep)
    (.prepare _ _ (.new randoms))
  obtain ⟨fs, k, rfl, hstands⟩ := (Stands.start rfl rfl).steps hr hsteps
  rw [Int.toNat_natCast] at hquad ⊢
  obtain ⟨r, q, a, gs, earlier, later, hplace, hreturns, hcopy, hfunctions, hgs⟩ :=
    htidy.result_copied (tree.results_known htidy) hquad hF hres
  obtain ⟨t, a', x, gs', hlog, -, hcopy'⟩ := hbooked.has_result hr.laidOut.first hquad hF hres
  obtain ⟨-, rfl, -⟩ : x = r ∧ a' = a ∧ gs' = gs := by simpa using hcopy'.symm.trans hcopy
  have hcell := hlog.locate hbooked.roomy (a := a') (by simp [AddressBlock.mem_cells])
  obtain ⟨kind, u, hkind, hu, hgiven⟩ :=
    hsound.placed.results F (List.mem_of_find?_eq_some hF) r hplace
  have hty : F.result.bind Kind.ty? = some u := by rw [hkind, Option.bind_some, hu]
  have hfills := hcall.fills hm
  obtain ⟨s, -, G, hquad', hG, rfl, rfl, -⟩ := hcall.returned hr hstands
  obtain rfl : s.name = name := by simpa using hquad'.symm.trans hquad
  obtain rfl : G = F := Option.some.inj (hG.symm.trans hF)
  have hload := Machine.load_returned (hgiven.isOf hsound.roomy) hplace hty hfills
  refine ⟨r, q, a', gs, earlier, later, fun r' q' => ⟨fun h' => ?_, ?_⟩, by simp, hcopy, hfunctions,
    ?_, fun v => ?_, fun m₁ hpasses hend => hpasses.eq_of_endproc (hr.program.quad?_eq_some hend)⟩
  · exact (htree ▸ h').unique hreturns htidy
  · rintro ⟨rfl, rfl⟩
    exact htree ▸ hreturns
  · rw [hgs, Int.ofNat_le]
  · rw [Program.receives_iff hcell (hr.program.quad?_eq_some hcopy), List.map_eq_nil_iff, hload]

/-- The result is an element of a local array. -/
theorem results_delivered_element :
    let source := "program p; fun int f() { int a[1]; a[0] = 3; return a[0]; } println(f());"
    (ofSource 1 source).rejection = none ∧ HasRoom 1 source ∧ DeliversResults 1 source := by
  intro source
  refine ⟨?accepted, ?room, results_delivered ?accepted ?room⟩ <;> decide +kernel

end Compiled

end Symphony
