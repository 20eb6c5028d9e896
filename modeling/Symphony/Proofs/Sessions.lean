import Symphony.Proofs.Leftovers
import Symphony.Proofs.Lines
import Symphony.Proofs.Monotone
import Symphony.Report

/-!
# One file after the other

The files of a list are played in one session. Three things outlive a file: the number of its last
line, the cells of the machine, and what a failed run has left half done.

**Theorem (`Session.report_alone`).** A file that is rejected alone is rejected in a list, for the
same cause some lines further down. A file that is accepted alone gets the same report in a list,
whether or not the files before it have failed, with two exceptions: alone it reads a cell without a
value, or a call that failed has left operands behind. Files that are played to their end leave
none.

The cells that are left can only be seen by a program that would fail without them
(`Machine.Below`), and the calls that are left open by a program that ends a function it has not
called. Compiled code does not (`Stands.follows`).
-/

namespace Symphony

open Exec

variable {m : Machine} {r : Rejection}

/-! ## Machines with older calls -/

section

variable {base : List Bank} {stored : List Int} {m' : Machine} {p : Program}

/-- A function that both machines have called ends in both. -/
theorem Program.follows_endproc {i : Int} (h : m.Below base stored m') {name : String}
    (hopen : m.records ≠ [] ∧ m.returns ≠ []) :
    Exec.Follows base stored ((p.execute i "ENDPROC" [name]).runFrom m)
      ((p.execute i "ENDPROC" [name]).runFrom m') := by
  have hexecute : p.execute i "ENDPROC" [name] = Routine.endproc.perform p i "ENDPROC" [name] := rfl
  have hattempt : Routine.endproc.attempt p i [name] = some <$> Routine.leave p name := rfl
  have hleave := Routine.follows_leave (p := p) h name (.inr hopen)
  rw [hexecute, Routine.runFrom_perform_one rfl, Routine.runFrom_perform_one rfl, hattempt,
    Attempt.runFrom_map, Attempt.runFrom_map]
  revert hleave
  generalize (Routine.leave p name).runFrom m = r, (Routine.leave p name).runFrom m' = r'
  obtain ⟨r, n⟩ := r
  obtain ⟨r', n'⟩ := r'
  rintro (⟨hunset, hlayered⟩ | ⟨hresult, hbelow⟩)
  · cases hunset
    exact .inl ⟨rfl, hlayered⟩
  · cases hresult
    cases r with
    | error f => exact .inr ⟨rfl, hbelow⟩
    | ok next => exact .inr ⟨rfl, hbelow⟩

namespace Stands

variable {c : Compiler} {rs fs : List Region} {main k : Nat}

/-- A quad at which a run stands ends no function but the innermost that is open. -/
theorem quad_cases (hr : Routed rs main c p) (h : Stands rs main c fs k m) {q : Quad}
    (hq : c.quads[k]? = some q) :
    (∃ w xs, q = .word w :: xs ∧ w ≠ "ENDPROC") ∨ ∃ r gs, fs = r :: gs ∧
      q = [.word "ENDPROC", .word r.name] := by
  rcases h.inside with ⟨-, rfl⟩ | ⟨hlo, hhi⟩
  · obtain rfl := Option.some.inj (hr.laidOut.first.symm.trans hq)
    exact .inl ⟨_, _, rfl, by decide⟩
  · rcases Nat.lt_or_eq_of_le hhi with hlt | rfl
    · rcases hr.staysWithin h.mem hlo hlt hq with ⟨w, xs, rfl, hw⟩ | hjump
      · exact .inl ⟨w, xs, rfl, hw.2.2⟩
      · cases hjump <;> exact .inl ⟨_, _, rfl, by decide⟩
    · exact .inr (hr.quad_end h.mem hq)

/-- A step of compiled code does not look at the calls that were open before it was played. -/
theorem follows (hr : Routed rs main c p) (h : Stands rs main c fs k m)
    (hbelow : m.Below base stored m') : (p.step k m).Follows base stored (p.step k m') := by
  cases hq : c.quads[k]? with
  | none =>
    refine Program.step_follows_of_none (fun name fields hquad => ?_) hbelow
    rw [hr.program.quad?, hq] at hquad
    cases hquad
  | some q =>
    have hquad := hr.program.quad?_eq_some hq
    rcases h.quad_cases hr hq with ⟨w, xs, rfl, hw⟩ | ⟨r, gs, rfl, rfl⟩
    · exact Program.step_follows_of_execute hquad
        (Program.mono_execute (fun hname => absurd hname hw) _ m m' hbelow)
    · refine Program.step_follows_of_execute hquad (Program.follows_endproc hbelow ⟨?_, ?_⟩)
      · exact List.ne_nil_of_length_pos (by rw [h.records]; exact Nat.succ_pos _)
      · exact List.ne_nil_of_length_pos (by rw [h.returns.length]; exact Nat.succ_pos _)

end Stands

end

/-- A machine that has just been made, with the random numbers that are still to come. -/
def Machine.fresh (m : Machine) : Machine :=
  { randoms := m.randoms, randomCount := m.randomCount }

theorem Machine.below_fresh (h : m.parameters = []) (constants : Bank) (inputs : Array String) :
    (m.fresh.prepare constants inputs).Below m.records m.returns (m.prepare constants inputs) where
  memory := (Memory.Extends.of_empty m.memory).set (.refl constants) .constants
  records := ⟨[], rfl, .nil⟩
  returns := rfl
  layered := trivial
  others := by simp [Machine.prepare, Machine.fresh, h]

/-- A program that meets no cell without a value on a new machine does the same on one that has been
used, as long as no operands have been left there. -/
theorem Compiled.play_of_fresh {line : Nat} {source : String}
    (h : (ofSource line source).rejection = none) (hm : m.parameters = []) (constants : Bank)
    (inputs : Array String) (limit : Nat) :
    let p := (ofSource line source).program
    (m.fresh.play p constants inputs limit).1 = .fault .uninitialized ∨
      ((m.play p constants inputs limit).1 = (m.fresh.play p constants inputs limit).1 ∧
        (m.play p constants inputs limit).2.prints =
          (m.fresh.play p constants inputs limit).2.prints) := by
  obtain ⟨regions, main, hr, -⟩ := exists_routed h
  have hstart : Stands regions main (ofSource line source).state [] 0
      (m.fresh.prepare constants inputs) :=
    .start rfl rfl
  have hrun := Program.run_follows (p := (ofSource line source).program)
    (I := fun i m => ∃ fs k, i = (k : Nat) ∧
      Stands regions main (ofSource line source).state fs k m)
    (fun i n n' hi hbelow => ?_) (fun i n j n' hi hstep => ?_) limit ⟨[], 0, rfl, hstart⟩
    (Machine.below_fresh hm constants inputs)
  · rcases hrun with hunset | ⟨hresult, hbelow, -⟩
    · exact .inl hunset
    · exact .inr ⟨hresult, hbelow.prints⟩
  · obtain ⟨fs, k, rfl, hstands⟩ := hi
    exact hstands.follows hr hbelow
  · obtain ⟨fs, k, rfl, hstands⟩ := hi
    exact hstands.step hr hstep

/-! ## Reports -/

namespace Report

/-- The note file of a source that has been compiled. -/
def noteOf (path : String) (c : Compiler) : Option (String × String) :=
  if c.finished then some (notePath path, Quad.program c.quads) else none

/-- The output for a file that is rejected on a line. -/
def rejected (path : String) (line : Nat) (r : Rejection) : String :=
  r.notice line ++ Console.line Console.red ["ERROR in " ++ path ++ ": " ++ r.message]

/-- The output for a file that is played. -/
def played (path : String) (outcome : Outcome) (prints : Array String) : String :=
  match outcome.failure? with
  | none => Console.line Console.green [path] ++ String.join prints.toList ++ "\n"
  | some f => Console.line Console.red ["ERROR in " ++ path ++ ": " ++ f.message]

end Report

namespace Session

variable {s : Session} {path text : String} {limit : Nat}

/-- The text of a file with the line ends that the compiler knows. -/
def sourceOf (text : String) : String :=
  String.ofList (Text.unixLines text.toList)

/-- What a session makes of the text of a file. -/
def compiled (s : Session) (text : String) : Compiled :=
  .ofSource s.line (sourceOf text)

/-- How playing a file ends. -/
def played (s : Session) (text : String) (limit : Nat) : Outcome × Machine :=
  s.machine.play (s.compiled text).program (.ofPools (s.compiled text).state.constants) #[] limit

/-- A new session, with the random numbers that are still to come. -/
def alone (s : Session) : Session :=
  { machine := s.machine.fresh }

theorem run_of_rejected (h : (s.compiled text).rejection = some r) :
    s.run text none limit =
      (.error (.rejected r),
        { s.renew (s.compiled text).state with line := (s.compiled text).line }) := by
  rw [compiled, sourceOf] at h ⊢
  rw [run, compile]
  generalize Compiled.ofSource s.line _ = c at h ⊢
  dsimp only
  rw [h]

theorem run_of_accepted (h : (s.compiled text).rejection = none) :
    s.run text none limit =
      (match (s.played text limit).1.failure? with
        | none => .ok (String.join (s.played text limit).2.prints.toList)
        | some f => .error f,
        { line := (s.compiled text).line
          compiler := (s.compiled text).state
          machine := (s.played text limit).2 }) := by
  rw [compiled, sourceOf] at h
  rw [played, compiled, sourceOf, run, compile]
  generalize Compiled.ofSource s.line _ = c at h ⊢
  dsimp only
  rw [h, Compiled.program]
  dsimp only [playCompiled, program, load, renew, inputLines]
  generalize s.machine.play _ _ _ _ = x
  obtain ⟨outcome, m⟩ := x
  cases outcome <;> rfl

theorem report_of_rejected (h : (s.compiled text).rejection = some r) :
    s.report path (some text) limit =
      (⟨Report.rejected path (s.compiled text).line r, Report.noteOf path (s.compiled text).state⟩,
        { s.renew (s.compiled text).state with line := (s.compiled text).line }) := by
  rw [report, run_of_rejected h]
  generalize s.compiled text = c
  rfl

theorem report_of_accepted (h : (s.compiled text).rejection = none) :
    s.report path (some text) limit =
      (⟨Report.played path (s.played text limit).1 (s.played text limit).2.prints,
          Report.noteOf path (s.compiled text).state⟩,
        { line := (s.compiled text).line
          compiler := (s.compiled text).state
          machine := (s.played text limit).2 }) := by
  rw [report, run_of_accepted h, Report.played]
  generalize s.compiled text = c, s.played text limit = x
  obtain ⟨outcome, m⟩ := x
  cases outcome <;> rfl

theorem note_report (s : Session) (path text : String) (limit : Nat) :
    (s.report path (some text) limit).1.note = Report.noteOf path (s.compiled text).state := by
  cases h : (s.compiled text).rejection with
  | none => rw [report_of_accepted h]
  | some r => rw [report_of_rejected h]

theorem line_report (s : Session) (path text : String) (limit : Nat) :
    (s.report path (some text) limit).2.line = (s.compiled text).line := by
  cases h : (s.compiled text).rejection with
  | none => rw [report_of_accepted h]
  | some r => rw [report_of_rejected h]

/-- Lines are only ever counted up. -/
theorem le_line_report (s : Session) (path : String) (text : Option String) (limit : Nat) :
    s.line ≤ (s.report path text limit).2.line := by
  cases text with
  | none => exact Nat.le_refl _
  | some text =>
    have hline := (Compiled.ofSource_later s.line 0 (sourceOf text)).line
    rw [Nat.zero_add] at hline
    rw [line_report, compiled, hline]
    exact Nat.le_add_left _ _

/-- A session compiles a file as a new one does, some lines further down. -/
theorem compiled_alone (h : 1 ≤ s.line) (text : String) :
    (s.alone.compiled text).Later (s.line - 1) (s.compiled text) := by
  have hlater := Compiled.ofSource_later (s.line - 1) 1 (sourceOf text)
  rwa [Nat.add_sub_of_le h] at hlater

theorem note_report_alone (h : 1 ≤ s.line) (path : String) (text : Option String) (limit : Nat) :
    (s.report path text limit).1.note = (s.alone.report path text limit).1.note := by
  cases text with
  | none => rfl
  | some text => rw [note_report, note_report, (compiled_alone h text).state]

/-- A file that is rejected alone is rejected for the same cause, some lines further down. -/
theorem output_report_of_rejected_alone (h : 1 ≤ s.line) {text : Option String} {t : String}
    (ht : text = some t) (hr : (s.alone.compiled t).rejection = some r) (path : String)
    (limit : Nat) :
    (s.alone.report path text limit).1.output = Report.rejected path (s.alone.compiled t).line r ∧
      ∃ r', r.Later (s.line - 1) r' ∧ (s.report path text limit).1.output =
        Report.rejected path ((s.alone.compiled t).line + (s.line - 1)) r' := by
  subst ht
  obtain ⟨-, hrejection, hline⟩ := compiled_alone h t
  rw [hr] at hrejection
  generalize hr' : (s.compiled t).rejection = o at hrejection
  cases hrejection with
  | some hlater =>
    refine ⟨by rw [report_of_rejected hr], _, hlater, ?_⟩
    rw [report_of_rejected hr', hline]

theorem played_alone (h : 1 ≤ s.line) (hr : (s.compiled text).rejection = none)
    (hm : s.machine.parameters = []) (limit : Nat) :
    (s.alone.played text limit).1 = .fault .uninitialized ∨
      ((s.played text limit).1 = (s.alone.played text limit).1 ∧
        (s.played text limit).2.prints = (s.alone.played text limit).2.prints) := by
  have hplayed : s.alone.played text limit =
      s.machine.fresh.play (s.compiled text).program (.ofPools (s.compiled text).state.constants)
        #[] limit := by
    rw [played, Compiled.program, Compiled.program, (compiled_alone h text).state]
    rfl
  rw [hplayed]
  exact Compiled.play_of_fresh hr hm _ _ _

/-- A file that is accepted alone, and does not read a cell without a value, is played the same. -/
theorem report_eq_alone (h : 1 ≤ s.line) (hm : s.machine.parameters = []) {text : Option String}
    (htext : ∀ t, text = some t →
      (s.alone.compiled t).rejection = none ∧ (s.alone.played t limit).1 ≠ .fault .uninitialized)
    (path : String) : (s.report path text limit).1 = (s.alone.report path text limit).1 := by
  cases text with
  | none => rfl
  | some text =>
    obtain ⟨haccepted, hset⟩ := htext text rfl
    obtain ⟨hstate, hrejection, -⟩ := compiled_alone h text
    rw [haccepted] at hrejection
    generalize hr : (s.compiled text).rejection = o at hrejection
    cases hrejection
    obtain ⟨houtcome, hprints⟩ := (played_alone h hr hm limit).resolve_left hset
    rw [report_of_accepted hr, report_of_accepted haccepted, houtcome, hprints, hstate]

/-! ## Lists of files -/

theorem reportAll_append (s : Session) (files : Files) (limit : Nat) (xs ys : List String) :
    s.reportAll files limit (xs ++ ys) =
      let r := s.reportAll files limit xs
      let r' := r.2.2.reportAll r.2.1 limit ys
      (r.1 ++ r'.1, r'.2) := by
  induction xs generalizing s files with
  | nil => simp [reportAll]
  | cons path xs ih =>
    rw [List.cons_append, reportAll, reportAll]
    simp only [ih]
    rw [String.append_assoc]

theorem reportAll_concat (s : Session) (files : Files) (limit : Nat) (xs : List String)
    (path : String) :
    (s.reportAll files limit (xs ++ [path])).2.2 =
      let r := s.reportAll files limit xs
      (r.2.2.report path (r.2.1.read? path) limit).2 := by
  rw [reportAll_append]
  rfl

theorem le_line_reportAll (s : Session) (files : Files) (limit : Nat) (paths : List String) :
    s.line ≤ (s.reportAll files limit paths).2.2.line := by
  induction paths using List.reverseRecOn with
  | nil => exact Nat.le_refl _
  | append_singleton paths path ih =>
    rw [reportAll_concat]
    exact Nat.le_trans ih (le_line_report _ _ _ _)

/-- A file is missing, is rejected, or has room for its cells and is played to its end. -/
def Completes (s : Session) (text : Option String) (limit : Nat) : Prop :=
  ∀ t, text = some t → (s.compiled t).rejection = none →
    Compiled.HasRoom s.line (sourceOf t) ∧ (s.played t limit).1 = .finished

theorem idle_report (hm : s.machine.Idle) {text : Option String} (h : s.Completes text limit)
    (path : String) : (s.report path text limit).2.machine.Idle := by
  cases text with
  | none => exact hm
  | some text =>
    cases hc : (s.compiled text).rejection with
    | some r =>
      rw [report_of_rejected hc]
      generalize s.compiled text = c
      exact hm
    | none =>
      obtain ⟨hroom, hend⟩ := h text rfl hc
      have hplay : s.played text limit = (.finished, (s.played text limit).2) := by
        rw [← hend]
      have hidle := Compiled.idle_of_finished hc hroom hm hplay
      rw [report_of_accepted hc]
      generalize s.compiled text = c
      exact hidle

theorem idle_reportAll (hm : s.machine.Idle) {files : Files} {paths : List String}
    (h : ∀ xs path ys, paths = xs ++ path :: ys →
      (s.reportAll files limit xs).2.2.Completes ((s.reportAll files limit xs).2.1.read? path)
        limit) :
    (s.reportAll files limit paths).2.2.machine.Idle := by
  induction paths using List.reverseRecOn with
  | nil => exact hm
  | append_singleton paths path ih =>
    rw [reportAll_concat]
    refine idle_report (ih fun xs path' ys hxs => h xs path' (ys ++ [path]) ?_)
      (h paths path [] rfl) path
    rw [hxs, List.append_assoc, List.cons_append]

theorem output_reportAll (s : Session) (files : Files) (limit : Nat) (before after : List String)
    (path : String) :
    ∃ rest, (s.reportAll files limit (before ++ path :: after)).1 =
      (s.reportAll files limit before).1 ++
      ((s.reportAll files limit before).2.2.report path
        ((s.reportAll files limit before).2.1.read? path)
        limit).1.output ++ rest := by
  rw [reportAll_append]
  generalize s.reportAll files limit before = r
  dsimp only [reportAll]
  exact ⟨_, String.append_assoc.symm⟩

/-- Every file of a list of files, and the report it would get alone, with the same random numbers.
Its report is part of the output. Its note file is the same. Complaints are the same some lines
further down. Else the reports are equal, unless the file meets a cell without a value when it is
played alone or finds operands that were left behind; and there are none if the files before have
completed. -/
theorem report_alone (randoms : Nat → Value) (files : Files) (limit : Nat) (before : List String)
    (path : String) (after : List String) :
    let reports := (({} : Session).supply randoms).reportAll files limit
    let s := (reports before).2.2
    let text := (reports before).2.1.read? path
    let here := (s.report path text limit).1
    let alone := (s.alone.report path text limit).1
    (∃ rest, (reports (before ++ path :: after)).1 = (reports before).1 ++ here.output ++ rest) ∧
    here.note = alone.note ∧
    (∀ t r, text = some t → (s.alone.compiled t).rejection = some r →
      alone.output = Report.rejected path (s.alone.compiled t).line r ∧
      ∃ r', r.Later (s.line - 1) r' ∧
        here.output = Report.rejected path ((s.alone.compiled t).line + (s.line - 1)) r') ∧
    (s.machine.parameters = [] →
      (∀ t, text = some t → (s.alone.compiled t).rejection = none ∧
        (s.alone.played t limit).1 ≠ .fault .uninitialized) → here = alone) ∧
    ((∀ earlier path' later, before = earlier ++ path' :: later →
      (reports earlier).2.2.Completes ((reports earlier).2.1.read? path') limit) →
        s.machine.parameters = []) := by
  intro reports s text here alone
  have hline : 1 ≤ s.line := le_line_reportAll (({} : Session).supply randoms) files limit before
  refine ⟨?_, ?_, fun t r ht hr => ?_, fun hm h => ?_, fun h => ?_⟩
  · exact output_reportAll _ files limit before after path
  · exact note_report_alone hline path text limit
  · exact output_report_of_rejected_alone hline ht hr path limit
  · exact report_eq_alone hline hm h path
  · exact (idle_reportAll ⟨rfl, rfl, rfl⟩ h).parameters

/-- A file that fails in the middle of a call leaves the call open, and makes no difference to the
next one. -/
theorem report_alone_after_fault : let files : Files :=
      [("a.sym", "program a; int x[1]; fun void f() { x[1] = 2; } f();"),
        ("b.sym", "program b; fun void g(int n) { println(n); } g(5);")]
    let reports := (({} : Session).supply fun _ => .dec 0.5).reportAll files 9
    let s := (reports ["a.sym"]).2.2
    let text := (reports ["a.sym"]).2.1.read? "b.sym"
    (s.machine.records.length = 1 ∧ s.machine.parameters = []) ∧
      (∀ t, text = some t → (s.alone.compiled t).rejection = none ∧
        (s.alone.played t 9).1 ≠ .fault .uninitialized) ∧
      (s.report "b.sym" text 9).1 = (s.alone.report "b.sym" text 9).1 := by
  have hreport := report_alone (fun _ => .dec 0.5)
    [("a.sym", "program a; int x[1]; fun void f() { x[1] = 2; } f();"),
      ("b.sym", "program b; fun void g(int n) { println(n); } g(5);")] 9 ["a.sym"] "b.sym" []
  -- without the local names, the two sides are the same terms and nothing has to be evaluated to
  -- compare them
  dsimp only at hreport ⊢
  obtain ⟨-, -, -, hequal, -⟩ := hreport
  refine ⟨?hopen, ?htext, hequal (And.right ?hopen) ?htext⟩
  case hopen => decide +kernel
  case htext =>
    intro t ht
    obtain rfl : t = "program b; fun void g(int n) { println(n); } g(5);" :=
      Option.some.inj (ht.symm.trans (by decide +kernel))
    constructor <;> decide +kernel

end Session

end Symphony
