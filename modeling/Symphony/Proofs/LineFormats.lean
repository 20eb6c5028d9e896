import Symphony.Proofs.Handover
import Symphony.Proofs.SelfCalls
import Symphony.Proofs.Targets
import Symphony.Proofs.Temporals

/-!
# Formats of lines

The first word of a line tells the machine what to do, and with it which fields have to follow
(`layout?`). The machine does not check this: it tries a routine with more and more fields until one
attempt fits.

**Theorem (`Compiled.well_formed`).** If no function calls itself, then every line of an accepted
source has the format of its first word, and its words are the fields that were emitted.

Most quads are emitted whole, and `Quad.At` says what they are. Jumps get their targets later
(`LaidOut.target`), and how many fields a special function has is known from what it takes
(`RunsBy.fed`). There remain the copies: only those after a call of the function being defined are
emitted without operands, so here none are (`RunsBy.selfCalls_eq_nil`), and the others do not change
any more.
-/

namespace Symphony

variable {fs : List Field} {c : Compiler} {k : Nat} {name : String} {t : Tree} {q : Quad}
  {s : Special.Signature}

/-! ## Formats -/

/-- What a field of a line has to be. -/
inductive FieldSort
  /-- An address, or a pointer to one. Behind an array of negative size addresses may be
  negative. -/
  | operand
  | number
  /-- The name of a function of the source. -/
  | function
deriving DecidableEq

/-- The fields after the name of an operation. The last one is where the result goes. -/
def Operation.layout : Operation → List FieldSort
  | binary _ => [.operand, .operand, .operand]
  | unary _ => [.operand, .operand]
  | copy => [.operand, .operand]

/-- The fields after the name of a routine. -/
def Routine.layout : Routine → List FieldSort
  | param => [.operand, .number]
  | goto => [.number]
  | gotof => [.operand, .number]
  | access => [.number, .operand, .operand]
  | ver => [.operand, .number, .number]
  | gosub => [.function]
  | endproc => [.function]
  | sqrt => [.operand]
  | log => [.operand]
  | get => [.operand]
  | length => [.operand]
  | random => [.operand]
  | toStr => [.operand]
  | input => [.operand]
  | floor => [.operand]
  | ceil => [.operand]
  | print => []
  | println => []
  | littleStar => []
  | note _ => []
  | copy => []

/-- The fields after the first word of a line. The machine looks for an operation of that name
first. -/
def layout? (name : String) : Option (List FieldSort) :=
  match Operation.ofName? name with
  | some o => some o.layout
  | none => (Routine.ofName? name).map Routine.layout

/-- A word as a field of a line, in a source with functions of some names. -/
def FieldSort.Fits (names : List String) : FieldSort → String → Prop
  | operand, s => ∃ a : Int, s = toString a ∨ s = "&" ++ toString a
  | number, s => ∃ n : Int, s = toString n
  | function, s => s ∈ names

/-- The words of a line have the format of the first one. -/
def WellFormed (names : List String) (words : List String) : Prop :=
  ∃ name fields layout, words = name :: fields ∧ layout? name = some layout ∧
    List.Forall₂ (FieldSort.Fits names) layout fields

theorem layout?_symbol (o : BinOp) : layout? o.symbol = some [.operand, .operand, .operand] := by
  cases o <;> decide

theorem layout?_mnemonic (o : UnOp) : layout? o.mnemonic = some [.operand, .operand] := by
  cases o <;> decide

/-- A special function has a field for its result. -/
theorem layout?_special (h : Special.signature? name = some s) :
    layout? name = some (List.replicate s.result.toList.length .operand) := by
  unfold Special.signature? at h
  split at h <;> first | (cases h; decide) | cases h

variable {names : List String}

theorem Stored.fits {rs : List Reservation} {f : Field} (h : Stored rs f) :
    FieldSort.operand.Fits names f.text := by
  obtain ⟨t, h⟩ := h
  cases h with
  | num => exact ⟨_, .inl rfl⟩
  | pointer => exact ⟨_, .inr rfl⟩

theorem FieldSort.fits_num (n : Int) : number.Fits names (Field.num n).text :=
  ⟨n, rfl⟩

theorem FieldSort.fits_address (a : Int) : operand.Fits names (Field.num a).text :=
  ⟨a, .inl rfl⟩

theorem FieldSort.fits_name (h : name ∈ names) : function.Fits names (Field.word name).text :=
  h

theorem FieldSort.fits_operands (hlength : fs.length = k)
    (h : ∀ f ∈ fs, operand.Fits names f.text) :
    List.Forall₂ (Fits names) (List.replicate k operand) (fs.map Field.text) := by
  subst hlength
  induction fs with
  | nil => exact .nil
  | cons f fs ih =>
    obtain ⟨hf, hfs⟩ := List.forall_mem_cons.1 h
    exact .cons hf (ih hfs)

/-- A special function has a field if it has a result. -/
theorem WellFormed.length_special {fields : List String} (h : WellFormed names (name :: fields))
    (hs : Special.signature? name = some s) : fields.length = s.result.toList.length := by
  obtain ⟨_, _, layout, hwords, hlayout, hfits⟩ := h
  obtain ⟨rfl, rfl⟩ := List.cons.inj hwords
  rw [layout?_special hs] at hlayout
  rw [← hfits.length_eq, ← Option.some.inj hlayout, List.length_replicate]

/-! ## Complete quads -/

/-- A quad has got all its fields. -/
structure Quad.IsComplete (names : List String) (q : Quad) : Prop where
  copy : ∀ fs, q = .word "=" :: fs → fs.length = 2
  goto : ∀ fs, q = .word "GOTO" :: fs → ∃ t : Int, fs = [.num t]
  gotof : ∀ fs, q = .word "GOTOF" :: fs → ∃ x, ∃ t : Int, fs = [x, .num t]
  endproc : ∀ fs, q = .word "ENDPROC" :: fs → ∃ name ∈ names, fs = [.word name]
  special : ∀ name fs s, q = .word name :: fs → Special.signature? name = some s →
    fs.length = s.result.toList.length

theorem Quad.Fed.length_special {args : List Field} (h : Quad.Fed args (.word name :: fs))
    (hs : Special.signature? name = some s) : fs.length = s.result.toList.length := by
  generalize hq : Field.word name :: fs = q at h
  cases h with
  | apart _ hw =>
    obtain rfl := Field.word.inj (List.cons.inj hq).1
    simp [IsApart, hs] at hw
  | param | gosub =>
    obtain rfl := Field.word.inj (List.cons.inj hq).1
    simp [Special.signature?] at hs
  | special hs' _ hlength =>
    obtain ⟨hname, rfl⟩ := List.cons.inj hq
    obtain rfl := Field.word.inj hname
    obtain rfl := Option.some.inj (hs.symm.trans hs')
    exact hlength

/-- Complete quads are well-formed. -/
theorem Quad.At.wellFormed {rs : List Reservation} {bs : List Int} {qs : Array Quad} {i : Nat}
    (h : q.At (fun s => ∀ name, s = some name → name ∈ names) rs bs qs i)
    (hq : q.IsComplete names) :
    WellFormed names (q.map Field.text) := by
  cases h with
  | gosub hname =>
    exact ⟨"GOSUB", _, _, rfl, by decide, .cons (FieldSort.fits_name (hname _ rfl)) .nil⟩
  | access _ _ hx =>
    exact ⟨"ACCESS", _, _, rfl, by decide,
      .cons (FieldSort.fits_num _) (.cons hx.fits (.cons (FieldSort.fits_address _) .nil))⟩
  | plain h =>
    cases h with
    | binary o hl hr hd =>
      exact ⟨o.symbol, _, _, rfl, layout?_symbol o,
        .cons hl.fits (.cons hr.fits (.cons hd.fits .nil))⟩
    | unary o hx hd =>
      exact ⟨o.mnemonic, _, _, rfl, layout?_mnemonic o, .cons hx.fits (.cons hd.fits .nil)⟩
    | copy hfs =>
      exact ⟨"=", _, _, rfl, by decide, FieldSort.fits_operands (hq.copy _ rfl) fun f hf =>
        (hfs f hf).fits⟩
    | verify n hx =>
      exact ⟨"VER", _, _, rfl, by decide,
        .cons hx.fits (.cons (FieldSort.fits_num _) (.cons (FieldSort.fits_num _) .nil))⟩
    | param hx =>
      exact ⟨"PARAM", _, _, rfl, by decide, .cons hx.fits (.cons (FieldSort.fits_num _) .nil)⟩
    | special hs hfs =>
      exact ⟨_, _, _, rfl, layout?_special hs,
        FieldSort.fits_operands (hq.special _ _ _ rfl hs) fun f hf => (hfs f hf).fits⟩
    | endproc =>
      obtain ⟨name, hname, hfs⟩ := hq.endproc _ rfl
      rw [hfs]
      exact ⟨"ENDPROC", _, _, rfl, by decide, .cons (FieldSort.fits_name hname) .nil⟩
    | goto =>
      obtain ⟨t, hfs⟩ := hq.goto _ rfl
      rw [hfs]
      exact ⟨"GOTO", _, _, rfl, by decide, .cons (FieldSort.fits_num t) .nil⟩
    | gotof hx =>
      obtain ⟨_, t, hfs⟩ := hq.gotof _ rfl
      rw [(List.cons.inj hfs).2]
      exact ⟨"GOTOF", _, _, rfl, by decide, .cons hx.fits (.cons (FieldSort.fits_num t) .nil)⟩

/-! ## Copies -/

namespace Compiler

variable {c' : Compiler}

theorem Emitted.length_copy {e : Event} (h : Emitted e c c' (.word "=" :: fs))
    (hself : c'.selfCalls = c.selfCalls) : fs.length = 2 := by
  generalize hq : Field.word "=" :: fs = q at h
  cases h with
  | assign | result => rw [(List.cons.inj hq).2, List.length_cons, List.length_singleton]
  | selfResult hnoted => exact absurd hself hnoted
  | binary o => cases o <;> simp [BinOp.symbol] at hq
  | @update o | @unary o => cases o <;> simp [UnOp.mnemonic] at hq
  | special _ hs =>
    obtain rfl : "=" = _ := by simpa using (List.cons.inj hq).1
    simp [Special.signature?] at hs
  | _ => simp at hq

/-- A copy that is added has its operands. -/
theorem Acts.copy_length {e : Event} (ha : Acts e c c') (hself : c'.selfCalls = c.selfCalls)
    (hk : c.quads.size ≤ k) (hq : c'.quads[k]? = some (.word "=" :: fs)) : fs.length = 2 := by
  by_cases he : e.isQuiet = true
  · exact ((ha.emitted he).of_getElem? hk hq).length_copy hself
  · exact absurd (ha.word_of_not_isQuiet he hk hq) (by decide)

/-! ## Functions that do not call themselves -/

/-- Without calls of functions by themselves none are noted. -/
theorem RunsBy.selfCalls_eq_nil {xs ys : List Event} (hr : TidyRuns xs {} c)
    (hsplit : t.events = xs ++ ys) (hself : Event.selfCalling none t.events = false) :
    c.selfCalls = [] := by
  induction xs using List.reverseRecOn generalizing ys c with
  | nil =>
    cases hr
    rfl
  | append_singleton xs e ih =>
    rw [List.append_assoc, List.singleton_append] at hsplit
    obtain ⟨c₁, hxs, he⟩ := runs_append.1 hr
    have ha := (runs_singleton.1 he).1
    rcases ha.selfCalls with hsame | ⟨_, _, s, f, -, -, -, hf, hres, hplace, hcalled, w, rfl⟩
    · rw [hsame, ih hxs hsplit]
    · -- only the current function has no place for its result yet
      obtain ⟨rest, hw, -⟩ := (ready hxs.plain hsplit).called w rfl
      obtain rfl : some w = s := by simpa [hw] using hcalled
      have hmem : (f.name, f.result, f.returnPlace) ∈ c₁.outcomes :=
        List.mem_map.2 ⟨f, List.mem_of_find?_eq_some hf, rfl⟩
      have hscope := hxs.selfCopies_of_empty.owing _ hmem hres hplace
      rw [name_of_function? hf] at hscope
      rw [hsplit] at hself
      have hnot := hxs.not_selfCalling hself
      simp [Event.selfCalling, Event.isSelfCall, ← hscope] at hnot

/-- Without calls of functions by themselves all copies have two operands. -/
theorem RunsBy.copy_length (hr : TidyRuns t.events {} c)
    (hself : Event.selfCalling none t.events = false) (hq : c.quads[k]? = some (.word "=" :: fs)) :
    fs.length = 2 := by
  obtain ⟨e, xs, ys, c₁, c₂, hsplit, hxs, he, hys, hlo, hhi⟩ :=
    hr.born (Nat.zero_le k) (Array.getElem?_eq_some_iff.1 hq).1
  have hxs' : TidyRuns (xs ++ [e]) {} c₂ := runs_append.2 ⟨c₁, hxs, runs_singleton.2 he⟩
  have hnone₁ := hxs.selfCalls_eq_nil hsplit hself
  have hnone₂ := hxs'.selfCalls_eq_nil (show t.events = (xs ++ [e]) ++ ys by simpa using hsplit)
      hself
  -- the copy is what it was when it was added
  obtain ⟨q, hold⟩ : ∃ q, c₂.quads[k]? = some q := ⟨_, Array.getElem?_eq_getElem hhi⟩
  obtain ⟨_, _, hplaced⟩ := hxs'.exists_placed
  obtain ⟨w, gs, rfl⟩ := (hplaced.quads k q hold).exists_word
  obtain ⟨more, hmore⟩ := hys.grown hold
  obtain rfl : "=" = w := by simpa using (List.cons.inj (Option.some.inj (hq.symm.trans hmore))).1
  have hkept := hys.copy_kept hold (by simp [hnone₂])
  obtain rfl := (List.cons.inj (Option.some.inj (hq.symm.trans hkept))).2
  exact he.1.copy_length (hnone₂.trans hnone₁.symm) hlo hold

end Compiler

open Compiler

/-- All quads of an accepted source without calls of functions by themselves are complete. -/
theorem Routed.isComplete {rs : List Region} {main : Nat} {p : Program} (h : Routed rs main c p)
    (hr : TidyRuns t.events {} c) (hself : Event.selfCalling none t.events = false)
    (hq : c.quads[k]? = some q) : q.IsComplete (rs.map Region.name) where
  copy := by
    rintro fs rfl
    exact hr.copy_length hself hq
  goto := by
    rintro fs rfl
    obtain ⟨target, -, -, hgoto, -⟩ := h.laidOut.target hq (.inl rfl)
    exact ⟨target, hgoto rfl⟩
  gotof := by
    rintro fs rfl
    obtain ⟨target, -, -, -, hgotof⟩ := h.laidOut.target hq (.inr rfl)
    obtain ⟨x, hfs⟩ := hgotof rfl
    exact ⟨x, target, hfs⟩
  endproc := by
    rintro fs rfl
    obtain ⟨r, hmem, -, hfs⟩ := h.ends_region hq
    exact ⟨r.name, List.mem_map_of_mem hmem, hfs⟩
  special := by
    rintro name fs s rfl hs
    have hfed : Quad.Fed _ (.word name :: fs) := ((hr.fed isFed_empty).quads k _ hq).1
    exact hfed.length_special hs

/-- The words of a text are the fields of the quads that it was read for. -/
theorem Program.IsOf.words_lines {text : String} {fs : List Function}
    (h : (Program.ofText text fs).IsOf c) :
    (Text.lines text).map Text.words = c.quads.toList.map (·.map Field.text) := by
  have hcode := congrArg Array.toList h.code
  rwa [Array.toList_map] at hcode

theorem Routed.wellFormed {rs : List Region} {main : Nat} {p : Program} (h : Routed rs main c p)
    (hr : TidyRuns t.events {} c) (hself : Event.selfCalling none t.events = false)
    (hnames : rs.map Region.name = t.events.filterMap Event.defined?) (hq : q ∈ c.quads) :
    WellFormed (rs.map Region.name) (q.map Field.text) := by
  have hdefined : ∀ result name, .defineFunction result name ∈ t.events →
      ∀ name', some name = some name' → name' ∈ rs.map Region.name := by
    intro result name hmem name' hname
    obtain rfl := Option.some.inj hname
    rw [hnames]
    exact List.mem_filterMap.2 ⟨_, hmem, rfl⟩
  obtain ⟨ss, bs, hplaced, -⟩ := hr.placed
    (N := fun s => ∀ name, s = some name → name ∈ rs.map Region.name)
      (placed_empty (by simp)) (by simp) (by simp)
    hdefined
  obtain ⟨k, hk⟩ := Array.getElem?_of_mem hq
  exact (hplaced.quads k q hk).wellFormed (h.isComplete hr hself hk)

/-- The text of an accepted source in which no function calls itself is split into the fields that
were emitted, and every line has the format of its first word: no line is empty, and special
functions have a field if they have a result. -/
theorem Compiled.well_formed {line : Nat} {source : String}
    (h : (Compiled.ofSource line source).rejection = none)
    (hself : Event.selfCalling none (Trace.ofSource line source).events = false) :
    let quads := (Compiled.ofSource line source).state.quads
    let lines := (Text.lines (Quad.program quads)).map Text.words
    lines = quads.toList.map (·.map Field.text) ∧
      ∀ words ∈ lines, WellFormed ((Trace.ofSource line source).events.filterMap Event.defined?)
        words ∧ ∀ name fields s, words = name :: fields → Special.signature? name = some s →
          fields.length = s.result.toList.length := by
  obtain ⟨t, ht, hruns⟩ := exists_runs h
  obtain ⟨rs, main, hr, hnames⟩ := exists_routed h
  have hlines := hr.program.words_lines
  rw [← ht] at hself hnames ⊢
  intro quads lines
  refine ⟨hlines, fun words hwords => ?_⟩
  rw [show lines = _ from hlines] at hwords
  obtain ⟨q, hq, rfl⟩ := List.mem_map.1 hwords
  have hwell := hr.wellFormed (t.laidOut hruns).1 hself hnames (Array.mem_toList_iff.1 hq)
  rw [hnames] at hwell
  refine ⟨hwell, fun name fields s hline hs => ?_⟩
  rw [hline] at hwell
  exact hwell.length_special hs

/-- A loop over the elements of an array, with a function and special functions. -/
theorem Compiled.well_formed_loop :
    let source := "program p; int a[3]; fun int f(int n) { return n; } " ++
      "while (a[0] < 2) { a[f(1)] = floor(-2.5); println(-a[1]); }"
    let lines : List (List String) :=
      [["GOTO", "2"], ["ENDPROC", "f"], ["VER", "200001", "0", "3"],
        ["ACCESS", "10000", "200001", "130000"],
        ["<", "&130000", "200002", "172000"], ["GOTOF", "172000", "20"], ["PARAM", "200003", "1"],
          ["GOSUB", "f"],
        ["=", "250000", "10003"], ["PARAM", "240000", "1"], ["floor", "130001"],
          ["VER", "10003", "0", "3"],
        ["ACCESS", "10000", "10003", "130002"], ["=", "130001", "&130002"],
          ["VER", "200003", "0", "3"],
        ["ACCESS", "10000", "200003", "130003"], ["MIN", "&130003", "130004"],
          ["PARAM", "130004", "1"], ["println"],
        ["GOTO", "2"]]
    (Compiled.ofSource 1 source).rejection = none ∧
      Event.selfCalling none (Trace.ofSource 1 source).events = false ∧
      (Text.lines (Quad.program (Compiled.ofSource 1 source).state.quads)).map Text.words = lines ∧
      ∀ words ∈ lines, WellFormed ["f"] words := by
  intro source lines
  obtain ⟨haccepted, hself, hquads, hnames⟩ : (Compiled.ofSource 1 source).rejection = none ∧
      Event.selfCalling none (Trace.ofSource 1 source).events = false ∧
      (Compiled.ofSource 1 source).state.quads.toList.map (·.map Field.text) = lines ∧
      (Trace.ofSource 1 source).events.filterMap Event.defined? = ["f"] := by decide +kernel
  obtain ⟨hlines, hwell⟩ := Compiled.well_formed haccepted hself
  rw [hlines, hquads] at hwell
  refine ⟨haccepted, hself, hlines.trans hquads, fun words hwords => ?_⟩
  rw [← hnames]
  exact (hwell words hwords).1

end Symphony
