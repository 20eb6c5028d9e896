import Symphony.Proofs.Faults
import Symphony.Proofs.Leftovers
import Symphony.Proofs.Targets

/-!
# When a run complains about its input

A run must find an input line whenever it asks for one, and must have read all lines at its end. If
not, it fails with the fault `inputMismatch`. Special functions that find nothing at a position fail
with the same fault, and so do those without a result whose operand has no cell.

**Theorem (`Compiled.inputMismatch_iff`).** A run of an accepted source fails with this fault
exactly if a line is missing or left over (`Program.MissesLines`), or a character is taken at an
index outside its text (`Program.MissesCharacter`), or an operand that has no cell is printed or
copied (`Program.MissesCell`). The last cannot happen if the source has no powers and room for its
cells.

All other quads fail with other faults, whatever their operands hold (`Compiler.IsFed.fault?_step`).
-/

namespace Symphony

open Exec

variable {m m' : Machine} {p : Program} {w x : String} {e f : Fault} {i : Int} {r : Routine}
  {rest : List String}

/-! ## Operands without a cell -/

namespace Memory

variable {m : Memory} {v : Value}

/-- An operand stands for no cell: a pointer holds no address, or an address is in no sector. -/
def Lacks (m : Memory) (x : String) : Prop :=
  m.resolve (.ofField x) = .error .mismatch ∨
    ∃ s, m.resolve (.ofField x) = .ok s ∧ Sector.locate? s.base = none

theorem load_eq_mismatch : m.load (.ofField x) = .error .mismatch ↔ m.Lacks x := by
  unfold load Lacks
  cases m.resolve (.ofField x) with
  | error f => simp [Except.bind]
  | ok s =>
    have hread : m.read s = .error .mismatch ↔ Sector.locate? s.base = none := by
      unfold read
      cases Sector.locate? s.base with
      | none => simp
      | some place =>
        dsimp only
        split <;> simp
    simp [Except.bind, hread]

theorem store_eq_mismatch : m.store (.ofField x) v = .error .mismatch ↔ m.Lacks x := by
  unfold store Lacks
  cases m.resolve (.ofField x) with
  | error f => simp [Except.bind]
  | ok s =>
    have hwrite : m.write s v = .error .mismatch ↔ Sector.locate? s.base = none := by
      unfold write
      cases Sector.locate? s.base <;> simp
    simp [Except.bind, hwrite]

/-- Operands have cells where types are kept. -/
theorem IsTyped.not_lacks {A : Int → Prop} {rs : List Reservation} {t : Ty} (h : m.IsTyped A rs)
    (hr : Roomy rs) {f : Field} (hf : Given rs t f) : ¬m.Lacks f.text := by
  rintro (hmismatch | ⟨s, hs, hnone⟩)
  · cases hf with
    | num hrs =>
      obtain ⟨s, hloc⟩ := (Given.num hrs).locate hr
      rw [Reference.ofField_num (Sector.natAbs_lt_tooLong hloc)] at hmismatch
      cases hmismatch
    | @pointer before later _ hrs =>
      have hloc : Sector.locate? ((Counters.after before).next .temporals t) =
          some (.temporals, t) := by
        rw [hrs] at hr
        exact hr.locate (Int.le_refl _) (Int.lt_succ _)
      rw [Reference.ofField_pointer (Sector.natAbs_lt_tooLong hloc)] at hmismatch
      change (m.read (.ofInt _)).bind Slot.ofValue = _ at hmismatch
      cases hv : m.read (.ofInt ((Counters.after before).next .temporals t)) with
      | error f =>
        rw [hv] at hmismatch
        rw [Memory.read_eq hloc] at hv
        split at hv <;> cases hv
        cases hmismatch
      | ok w =>
        obtain ⟨n, base, b, -, rfl, -, -⟩ := h.read_pointer hr hrs hv
        rw [hv] at hmismatch
        cases hmismatch
  · obtain ⟨a, s', rfl, -, hloc, -⟩ := h.resolve hr hf hs
    cases hnone.symm.trans hloc

end Memory

/-! ## The complaint -/

namespace Program

/-- A line is asked for when all have been read, or the program is at its end and some have not been
read. -/
def MissesLines (p : Program) (inputs : Array String) (i : Int) (m : Machine) : Prop :=
  (∃ d, p.quad? i = some ["input", d] ∧ m.inputCount = inputs.size) ∨
    (p.quad? i = none ∧ m.inputCount < inputs.size)

/-- A character of a text is asked for at an index that lies outside. -/
def MissesCharacter (p : Program) (i : Int) (m : Machine) : Prop :=
  ∃ d x y rest v n s, p.quad? i = some ["get", d] ∧ m.parameters = x :: y :: rest ∧
    m.memory.load (.ofField x) = .ok v ∧ v.int? = some n ∧
      m.memory.load (.ofField y) = .ok (.str s) ∧
    ¬(-(s.length : Int) ≤ n ∧ n < s.length)

/-- An operand that has no cell is printed, copied or copied to. -/
def MissesCell (p : Program) (i : Int) (m : Machine) : Prop :=
  (∃ name x rest, (name = "print" ∨ name = "println") ∧ p.quad? i = some [name] ∧
    m.parameters = x :: rest ∧ m.memory.Lacks x) ∨
  ∃ x y rest, p.quad? i = some ["copy"] ∧ m.parameters = x :: y :: rest ∧
    (m.memory.Lacks y ∨ (∃ v, m.memory.load (.ofField y) = .ok v) ∧ m.memory.Lacks x)

end Program

/-- The fault that a step fails with. -/
def StepResult.fault? : StepResult → Option Fault
  | failed f _ => some f
  | _ => none

/-! ## Actions that fail for reasons of values -/

namespace Exec

variable {α β : Type}

theorem ofValues_bind {x : Exec α} {f : α → Exec β} (hx : OfValues (x.runFrom m).1)
    (hf : ∀ a m', x.runFrom m = (.ok a, m') → OfValues ((f a).runFrom m').1) :
    OfValues ((x >>= f).runFrom m).1 := by
  rw [Attempt.runFrom_bind]
  split
  case h_1 a m' hm => exact hf a m' hm
  case h_2 e m' hm =>
    rw [hm] at hx
    exact .error e (hx e rfl)

theorem ne_inputMismatch {x : Except Fault α} (h : OfValues x) : x ≠ .error .inputMismatch := by
  intro hx
  cases h _ hx

theorem bind_ne_inputMismatch {x : Exec α} {f : α → Exec β} (hx : OfValues (x.runFrom m).1)
    (hf : ∀ a m', ((f a).runFrom m').1 ≠ .error .inputMismatch) :
    ((x >>= f).runFrom m).1 ≠ .error .inputMismatch := by
  rw [Attempt.runFrom_bind]
  split
  case h_1 a m' hm => exact hf a m'
  case h_2 e m' hm =>
    rw [hm] at hx
    exact ne_inputMismatch (.error e (hx e rfl))

theorem ofValues_value (field : String) (m : Machine) : OfValues ((value field).runFrom m).1 := by
  rw [runFrom_value]
  exact m.memory.ofValues_load _

theorem ofValues_ofExcept {x : Except Fault α} (hx : OfValues x) (m : Machine) :
    OfValues ((Attempt.ofExcept x : Exec α).runFrom m).1 := by
  rw [Attempt.runFrom_ofExcept]
  exact hx

theorem ofValues_store (v : Value) (field : String) (m : Machine) :
    OfValues ((store v field).runFrom m).1 := by
  have hstore := m.memory.ofValues_store (.ofField field) v
  rw [runFrom_store]
  cases hs : m.memory.store (.ofField field) v with
  | error f => exact .error f (hstore f hs)
  | ok memory => exact .ok ()

theorem ofValues_integer (field : String) (m : Machine) :
    OfValues ((integer field).runFrom m).1 := by
  unfold integer
  split
  · exact .ok _
  · exact .error _ rfl

theorem ofValues_done {x : Exec Unit} (hx : OfValues (x.runFrom m).1) :
    OfValues ((do x; return (none : Option Int) : Exec (Option Int)).runFrom m).1 :=
  ofValues_bind hx fun _ _ _ => .ok _

theorem done_eq_error {x : Exec Unit} :
    ((do x; return (none : Option Int) : Exec (Option Int)).runFrom m).1 = .error e ↔
      (x.runFrom m).1 = .error e := by
  rw [Attempt.runFrom_bind]
  rcases x.runFrom m with ⟨f | _, m'⟩ <;> simp

theorem ofValues_map {x : Exec α} (f : α → β) (hx : OfValues (x.runFrom m).1) :
    OfValues ((f <$> x).runFrom m).1 := by
  rw [map_eq_pure_bind]
  exact ofValues_bind hx fun _ _ _ => .ok _

/-- Where an action comes to a certain machine, what follows it starts from there. -/
theorem bind_eq_error {x : Exec α} {f : α → Exec β} {r : Except Fault α}
    (hx : x.runFrom m = (r, m')) :
    ((x >>= f).runFrom m).1 = .error e ↔ r = .error e ∨ ∃ a, r = .ok a ∧
      ((f a).runFrom m').1 = .error e := by
  rw [Attempt.runFrom_bind, hx]
  cases r <;> simp

theorem store_eq_error {v : Value} {field : String} :
    ((store v field).runFrom m).1 = .error e ↔ m.memory.store (.ofField field) v = .error e := by
  rw [runFrom_store]
  cases m.memory.store (.ofField field) v <;> simp

theorem runFrom_popParameter (hm : m.parameters = x :: rest) :
    popParameter.runFrom m = (.ok x, { m with parameters := rest }) := by
  simp [popParameter, hm]

theorem runFrom_popValue (hm : m.parameters = x :: rest) :
    popValue.runFrom m = (m.memory.load (.ofField x), { m with parameters := rest }) := by
  rw [popValue, Attempt.runFrom_bind, runFrom_popParameter hm]
  dsimp only
  rw [runFrom_value]

end Exec

namespace Routine

variable {name a y : String}

theorem ofValues_storeOf {f : Value → Except Fault Value} (hf : ∀ v, OfValues (f v)) (d : String)
    (hm : m.parameters = x :: rest) : OfValues ((storeOf f d).runFrom m).1 := by
  refine ofValues_bind ?_ fun v _ _ => ofValues_bind (ofValues_ofExcept (hf v) _) fun w _ _ =>
    ofValues_store w d _
  rw [runFrom_popValue hm]
  exact m.memory.ofValues_load _

theorem ofValues_random (d : String) (m : Machine) :
    OfValues ((random.attempt p i [d]).runFrom m).1 :=
  ofValues_done (ofValues_bind (.ok _) fun w _ _ => ofValues_store w d _)

theorem ofValues_enter (name : String) (caller : Int) (m : Machine) :
    OfValues ((enter p name caller).runFrom m).1 := by
  have hbind : ∀ ps m, OfValues ((bind ps).runFrom m).1 := by
    intro ps
    induction ps with
    | nil => exact fun m => .ok ()
    | cons x ps ih =>
      intro m
      refine ofValues_bind (ofValues_value _ _) fun v m' _ => ?_
      split
      · exact .error _ rfl
      · exact ofValues_bind (.ok ()) fun _ _ _ => ih _
  refine ofValues_bind (.ok ()) fun _ m' _ => ?_
  split
  · exact .error _ rfl
  · exact ofValues_bind (.ok _) fun _ _ _ => ofValues_bind (hbind _ _) fun _ _ _ => .ok _

/-- A function can be left if there are suspended calls. -/
theorem ofValues_leave (name : String) (hrecords : m.records ≠ []) (hreturns : m.returns ≠ []) :
    OfValues ((leave p name).runFrom m).1 := by
  unfold leave
  split
  · exact .error _ rfl
  · refine ofValues_bind (.ok m) fun m₁ m₂ hget => ?_
    cases hget
    split
    case h_1 hnil => exact absurd hnil hrecords
    case h_2 =>
      refine ofValues_bind (.ok ()) fun _ _ _ => ?_
      split
      case h_1 hnil => exact absurd hnil hreturns
      case h_2 => exact .ok _

/-- Jumps on conditions, and quads of arrays, never complain about input. -/
theorem attempt_ne_inputMismatch (hr : r = gotof ∨ r = access ∨ r = ver) (fields : List String)
    (m : Machine) : ((r.attempt p i fields).runFrom m).1 ≠ .error .inputMismatch := by
  unfold attempt
  split
  case h_18 =>
    refine ne_inputMismatch (ofValues_bind (ofValues_value _ _) fun v m' _ => ?_)
    split
    · exact .ok _
    · exact ofValues_map _ (ofValues_integer _ _)
  case h_19 =>
    refine ne_inputMismatch (ofValues_done (ofValues_bind (ofValues_value _ _) fun _ _ _ => ?_))
    exact ofValues_bind (ofValues_integer _ _) fun _ _ _ =>
      ofValues_bind (ofValues_ofExcept (Value.ofValues_add _ _) _) fun _ _ _ => ofValues_store _ _ _
  case h_20 index low high =>
    have hverify : ∀ m, ((verify index low high).runFrom m).1 ≠ .error .inputMismatch := by
      refine fun m => bind_ne_inputMismatch (ofValues_value _ _) fun v m' => ?_
      refine bind_ne_inputMismatch (ofValues_integer _ _) fun high m' => ?_
      refine bind_ne_inputMismatch (ofValues_integer _ _) fun low m' => ?_
      refine bind_ne_inputMismatch (ofValues_ofExcept (ofValues_between low v high) _)
        fun inside m' => ?_
      split
      · exact bind_ne_inputMismatch (ofValues_ofExcept v.ofValues_text _) fun _ _ h => by cases h
      · exact ne_inputMismatch (.ok ())
    intro h
    rw [Attempt.runFrom_bind] at h
    split at h
    case h_1 => cases h
    case h_2 e m' hm =>
      cases h
      exact hverify m (by rw [hm])
  case h_23 => exact fun h => by cases h
  all_goals rcases hr with hr | hr | hr <;> cases hr

/-! ## Routines that complain -/

theorem reported_eq_inputMismatch : f.reported name = .inputMismatch ↔ f.isOfValues = false := by
  cases f <;> simp [Fault.reported, Fault.isOfValues, Fault.isPosition]

/-- A routine with one field complains if it fails for other reasons than values. -/
theorem perform_one_eq_inputMismatch (hnil : r.attempt p i [] = throw .mismatch) :
    ((r.perform p i name [a]).runFrom m).1 = .error .inputMismatch ↔
      ∃ f, ((r.attempt p i [a]).runFrom m).1 = .error f ∧ f.isOfValues = false := by
  rw [runFrom_perform_one hnil]
  rcases (r.attempt p i [a]).runFrom m with ⟨f | next, m'⟩
  · simp [reported_eq_inputMismatch]
  · simp

theorem perform_one_ne_inputMismatch (hnil : r.attempt p i [] = throw .mismatch)
    (h : OfValues ((r.attempt p i [a]).runFrom m).1) :
    ((r.perform p i name [a]).runFrom m).1 ≠ .error .inputMismatch := by
  rw [Ne, perform_one_eq_inputMismatch hnil]
  rintro ⟨f, hf, hnot⟩
  rw [h f hf] at hnot
  cases hnot

/-- A routine without fields complains if something does not fit. -/
theorem perform_nil_eq_inputMismatch (h : OfValues ((r.attempt p i []).runFrom m).1) :
    ((r.perform p i name []).runFrom m).1 = .error .inputMismatch ↔
      ((r.attempt p i []).runFrom m).1 = .error .mismatch := by
  rw [runFrom_perform_nil]
  rcases hm : (r.attempt p i []).runFrom m with ⟨f | next, m'⟩
  · rw [hm] at h
    have hf := h f rfl
    cases f <;> simp [Fault.isOfValues, Fault.isPosition] at hf ⊢
  · simp

theorem perform_more_ne_inputMismatch (hone : r.attempt p i [a] = throw .mismatch)
    (h : ∀ fields m, ((r.attempt p i fields).runFrom m).1 ≠ .error .inputMismatch) :
    ((r.perform p i name (a :: rest)).runFrom m).1 ≠ .error .inputMismatch := by
  have hmore : ∀ m, ((r.attemptMore p i a rest).runFrom m).1 ≠ .error .inputMismatch := by
    intro m
    cases rest with
    | nil => exact fun h => by cases h
    | cons b rest =>
      change ((orIfMismatch (r.attempt p i [a, b]) _).runFrom m).1 ≠ _
      rw [orIfMismatch, show (tryCatch _ _ : Exec (Option Int)).runFrom m =
        _ from Attempt.runFrom_tryCatch _ _ _]
      have hfirst := h [a, b] m
      rcases hm : (r.attempt p i [a, b]).runFrom m with ⟨f | next, m'⟩
      · rw [hm] at hfirst
        cases f with
        | mismatch =>
          cases rest with
          | nil => exact fun h => by cases h
          | cons c rest => exact h [a, b, c] m'
        | _ => exact hfirst
      · exact fun h => by cases h
  rw [perform, hone]
  exact hmore m

/-- Special functions without a part in input, with as many operands as they have parameters. -/
theorem special_ne_inputMismatch {s : Special.Signature} {fields : List String}
    (hs : Special.signature? name = some s) (hfields : fields.length = s.result.toList.length)
    (hargs : m.parameters.length = s.parameters.length)
    (hname : name ∉ ["print", "println", "copy", "get", "input"]) :
    ∃ r, Operation.ofName? name = none ∧ ofName? name = some r ∧
      ((r.perform p i name fields).runFrom m).1 ≠ .error .inputMismatch := by
  have hstore : ∀ {r : Routine} {name : String} {f : Value → Except Fault Value},
      (∀ v, OfValues (f v)) →
      r.attempt p i [] = throw .mismatch → (∀ d, r.attempt p i [d] = do storeOf f d; return none) →
      fields.length = 1 → m.parameters.length = 1 →
      ((r.perform p i name fields).runFrom m).1 ≠ .error .inputMismatch := by
    intro r name f hf hnil hattempt hfields hargs
    obtain ⟨d, rfl⟩ := List.length_eq_one_iff.1 hfields
    obtain ⟨x, hx⟩ := List.length_eq_one_iff.1 hargs
    refine perform_one_ne_inputMismatch hnil ?_
    rw [hattempt]
    exact ofValues_done (ofValues_storeOf hf d hx)
  have hplay : ∀ {r : Routine} {name : String} {names : List String}, r.attempt p i [] =
      (do playNotes names; return none) →
      fields.length = 0 → ((r.perform p i name fields).runFrom m).1 ≠ .error .inputMismatch := by
    intro r name names hattempt hfields
    obtain rfl := List.eq_nil_of_length_eq_zero hfields
    rw [runFrom_perform_nil, hattempt]
    exact fun h => by cases h
  unfold Special.signature? at hs
  split at hs <;> cases hs
  case h_1 | h_2 | h_4 | h_17 | h_18 => simp at hname
  all_goals refine ⟨_, by decide, rfl, ?_⟩
  case h_3 => exact hstore (fun v => v.ofValues_text.map _) rfl (fun _ => rfl) hfields hargs
  case h_5 => exact hstore ofValues_sqrtOf rfl (fun _ => rfl) hfields hargs
  case h_6 => exact hstore ofValues_logOf rfl (fun _ => rfl) hfields hargs
  case h_7 =>
    obtain ⟨d, rfl⟩ := List.length_eq_one_iff.1 hfields
    exact perform_one_ne_inputMismatch rfl (ofValues_random d m)
  case h_16 => exact hstore ofValues_lengthOf rfl (fun _ => rfl) hfields hargs
  case h_19 => exact hstore (ofValues_roundWith _) rfl (fun _ => rfl) hfields hargs
  case h_20 => exact hstore (ofValues_roundWith _) rfl (fun _ => rfl) hfields hargs
  all_goals exact hplay rfl hfields

/-- Printing complains if the operand has no cell. -/
theorem print_eq_inputMismatch {ending : String}
    (hattempt : r.attempt p i [] = do printWith ending; return none)
    (hm : m.parameters = x :: rest) :
    ((r.perform p i name []).runFrom m).1 = .error .inputMismatch ↔ m.memory.Lacks x := by
  have hprint : ∀ f, ((r.attempt p i []).runFrom m).1 = .error f ↔
      m.memory.load (.ofField x) = .error f ∨ ∃ v, m.memory.load (.ofField x) = .ok v ∧
        v.printed = .error f := by
    intro f
    rw [hattempt, done_eq_error, printWith]
    simp only [bind_eq_error (runFrom_popValue hm), bind_eq_error (Attempt.runFrom_ofExcept _ _)]
    simp
  have hvalues : OfValues ((r.attempt p i []).runFrom m).1 := by
    intro f hf
    rcases (hprint f).1 hf with hload | ⟨v, -, hv⟩
    · exact m.memory.ofValues_load _ f hload
    · rw [Value.eq_tooManyDigits_of_printed hv]
      rfl
  rw [perform_nil_eq_inputMismatch hvalues, hprint, Memory.load_eq_mismatch]
  refine ⟨fun h => h.resolve_right ?_, .inl⟩
  rintro ⟨v, -, hv⟩
  cases Value.eq_tooManyDigits_of_printed hv

/-- Copying a text complains if one of the operands has no cell. -/
theorem copy_eq_inputMismatch (hm : m.parameters = x :: y :: rest) :
    ((copy.perform p i name []).runFrom m).1 = .error .inputMismatch ↔
      m.memory.Lacks y ∨ (∃ v, m.memory.load (.ofField y) = .ok v) ∧ m.memory.Lacks x := by
  have hcopy : ∀ f, ((copy.attempt p i []).runFrom m).1 = .error f ↔
      m.memory.load (.ofField y) = .error f ∨
      ∃ v, m.memory.load (.ofField y) = .ok v ∧ m.memory.store (.ofField x) v = .error f := by
    intro f
    have hpop := runFrom_popValue (m := { m with parameters := y :: rest }) rfl
    rw [attempt, done_eq_error]
    simp only [bind_eq_error (runFrom_popParameter hm), bind_eq_error hpop, store_eq_error]
    simp
  have hvalues : OfValues ((copy.attempt p i []).runFrom m).1 := by
    intro f hf
    rcases (hcopy f).1 hf with hload | ⟨v, -, hstore⟩
    · exact m.memory.ofValues_load _ f hload
    · exact m.memory.ofValues_store _ v f hstore
  rw [perform_nil_eq_inputMismatch hvalues, hcopy, Memory.load_eq_mismatch]
  simp [Memory.store_eq_mismatch]

/-- Taking a character complains if there is none at the index. -/
theorem get_eq_inputMismatch (d : String) (hm : m.parameters = x :: y :: rest) :
    ((get.perform p i name [d]).runFrom m).1 = .error .inputMismatch ↔
      ∃ v n s, m.memory.load (.ofField x) = .ok v ∧ v.int? = some n ∧
        m.memory.load (.ofField y) = .ok (.str s) ∧ ¬(-(s.length : Int) ≤ n ∧ n < s.length) := by
  have hget : ∀ f, ((get.attempt p i [d]).runFrom m).1 = .error f ↔
      m.memory.load (.ofField x) = .error f ∨
      ∃ v, m.memory.load (.ofField x) = .ok v ∧ (m.memory.load (.ofField y) = .error f ∨
        ∃ t, m.memory.load (.ofField y) = .ok t ∧ (characterOf t v = .error f ∨
          ∃ c, characterOf t v = .ok c ∧ m.memory.store (.ofField d) c = .error f)) := by
    intro f
    have hpop := runFrom_popValue (m := { m with parameters := y :: rest }) rfl
    rw [attempt, done_eq_error]
    simp only [bind_eq_error (runFrom_popValue hm), bind_eq_error hpop,
      bind_eq_error (Attempt.runFrom_ofExcept _ _), store_eq_error]
  rw [perform_one_eq_inputMismatch rfl]
  constructor
  · rintro ⟨f, hf, hnot⟩
    have hvalues : ∀ {α : Type} {e : Except Fault α}, OfValues e → e ≠ .error f := by
      intro α e he hef
      rw [he f hef] at hnot
      cases hnot
    rcases (hget f).1 hf with hx | ⟨v, hx, hy | ⟨t, hy, hchar | ⟨c, -, hstore⟩⟩⟩
    · exact absurd hx (hvalues (m.memory.ofValues_load _))
    · exact absurd hy (hvalues (m.memory.ofValues_load _))
    · by_cases habsent : characterOf t v = .error .absent
      · obtain ⟨s, n, rfl, hn, hout⟩ := characterOf_eq_absent.1 habsent
        exact ⟨v, n, s, hx, hn, hy, hout⟩
      · exact absurd hchar (hvalues (ofValues_characterOf habsent))
    · exact absurd hstore (hvalues (m.memory.ofValues_store _ _))
  · rintro ⟨v, n, s, hx, hn, hy, hout⟩
    exact ⟨.absent, (hget _).2 (.inr
      ⟨v, hx, .inr ⟨_, hy, .inl (characterOf_eq_absent.2 ⟨s, n, rfl, hn, hout⟩)⟩⟩), rfl⟩

/-- Reading a line complains if there is none. -/
theorem input_eq_inputMismatch (d : String) :
    ((input.perform p i name [d]).runFrom m).1 = .error .inputMismatch ↔
      m.inputs.size ≤ m.inputCount := by
  rw [perform_one_eq_inputMismatch rfl, ← Array.getElem?_eq_none_iff]
  have hread : ∀ f, ((input.attempt p i [d]).runFrom m).1 = .error f ↔
      m.inputs[m.inputCount]? = none ∧ f = .absent ∨
        ∃ line, m.inputs[m.inputCount]? = some line ∧ m.memory.store (.ofField d) (.str line) =
          .error f := by
    intro f
    have hget : (MonadState.get : Exec Machine).runFrom m = (.ok m, m) := rfl
    rw [attempt, done_eq_error, readInput, bind_eq_error hget]
    simp only [reduceCtorEq, false_or, Except.ok.injEq, exists_eq_left']
    cases hline : m.inputs[m.inputCount]? with
    | none => simp [eq_comm]
    | some line =>
      dsimp only
      rw [Attempt.runFrom_bind, runFrom_store]
      cases hs : m.memory.store (.ofField d) (.str line) <;> simp [hs]
  constructor
  · rintro ⟨f, hf, hnot⟩
    rcases (hread f).1 hf with ⟨hnone, -⟩ | ⟨line, -, hstore⟩
    · exact hnone
    · rw [m.memory.ofValues_store _ _ f hstore] at hnot
      cases hnot
  · exact fun hnone => ⟨.absent, (hread _).2 (.inl ⟨hnone, rfl⟩), rfl⟩

end Routine

theorem Operation.perform_ne_inputMismatch (o : Operation) (fields : List String) (m : Machine) :
    ((o.perform fields).runFrom m).1 ≠ .error .inputMismatch := by
  have hdividend : ∀ (l : Value) {x : Except Fault Value}, OfValues x →
      OfValues (nameDividend l x) := by
    intro l x hx
    unfold nameDividend
    split
    · exact l.ofValues_text.bind fun t => .error _ rfl
    · exact hx
  unfold perform
  split
  case h_1 =>
    refine ne_inputMismatch (ofValues_bind (ofValues_value _ _) fun v _ _ =>
      ofValues_bind (ofValues_ofExcept ?_ _)
      fun r _ _ => ofValues_store r _ _)
    cases o with
    | binary => exact .error _ rfl
    | unary o => exact o.ofValues_apply v
    | copy => exact .ok v
  case h_2 =>
    refine ne_inputMismatch (ofValues_bind (ofValues_value _ _) fun l _ _ =>
      ofValues_bind (ofValues_value _ _)
      fun r _ _ => ofValues_bind (ofValues_ofExcept (hdividend l ?_) _) fun v _ _ =>
        ofValues_store v _ _)
    cases o with
    | binary o => exact o.ofValues_apply l r
    | unary | copy => exact .error _ rfl
  case h_3 => exact fun h => by cases h

/-! ## Steps -/

namespace Program

variable {j : Int} {name : String} {fields : List String}

theorem fault?_step (hq : p.quad? i = some (name :: fields)) :
    (p.step i m).fault? = some f ↔ ((p.execute i name fields).runFrom m).1 = .error f := by
  rw [step, hq]
  dsimp only
  rcases (p.execute i name fields).runFrom m with ⟨_ | _, _⟩ <;> simp [StepResult.fault?]

theorem fault?_step_routine (hq : p.quad? i = some (name :: fields))
    (ho : Operation.ofName? name = none) (hr : Routine.ofName? name = some r) :
    (p.step i m).fault? = some f ↔ ((r.perform p i name fields).runFrom m).1 = .error f := by
  rw [fault?_step hq, execute, ho]
  dsimp only
  rw [hr]

/-- At the end of a program all lines must have been read. -/
theorem fault?_step_end (hq : p.quad? i = none) :
    (p.step i m).fault? = some .inputMismatch ↔ m.inputCount ≠ m.inputs.size := by
  rw [step, hq]
  dsimp only
  by_cases hcount : m.inputCount = m.inputs.size <;> simp [finish, hcount, StepResult.fault?]

/-- Most quads have no part in the complaint. -/
theorem not_misses {inputs : Array String} (hq : p.quad? i = some (name :: fields))
    (hname : name ∉ ["print", "println", "copy", "get", "input"]) :
    ¬(p.MissesLines inputs i m ∨ p.MissesCharacter i m ∨ p.MissesCell i m) := by
  simp only [List.mem_cons, List.not_mem_nil, or_false, not_or] at hname
  rintro ((⟨d, hq', -⟩ | ⟨hq', -⟩) | ⟨d, _, _, _, _, _, _, hq', -⟩ | ⟨w, _, _, hw, hq', -⟩ | ⟨_, _,
    _, hq', -⟩)
  all_goals
    rw [hq] at hq'
    try cases hq'
  · exact hname.2.2.2.2 rfl
  · exact hname.2.2.2.1 rfl
  · rcases hw with rfl | rfl
    · exact hname.1 rfl
    · exact hname.2.1 rfl
  · exact hname.2.2.1 rfl

/-- The special functions that complain about the number of input lines, with as many operands as
they have parameters. -/
theorem special_misses {s : Special.Signature} (hq : p.quad? i = some (name :: fields))
    (hs : Special.signature? name = some s) (hfields : fields.length = s.result.toList.length)
    (hargs : m.parameters.length = s.parameters.length)
    (hname : name ∈ ["print", "println", "copy", "get", "input"])
    (hcount : m.inputCount ≤ m.inputs.size) :
    (p.step i m).fault? = some .inputMismatch ↔
      p.MissesLines m.inputs i m ∨ p.MissesCharacter i m ∨ p.MissesCell i m := by
  simp only [List.mem_cons, List.not_mem_nil, or_false] at hname
  rcases hname with rfl | rfl | rfl | rfl | rfl <;> cases hs
  case inl | inr.inl =>
    obtain rfl := List.eq_nil_of_length_eq_zero hfields
    obtain ⟨x, hx⟩ := List.length_eq_one_iff.1 hargs
    rw [fault?_step_routine hq (by decide) rfl, Routine.print_eq_inputMismatch rfl hx]
    simp [MissesLines, MissesCharacter, MissesCell, hq, hx]
  case inr.inr.inl =>
    obtain rfl := List.eq_nil_of_length_eq_zero hfields
    obtain ⟨x, y, hx⟩ := List.length_eq_two.1 hargs
    rw [fault?_step_routine hq (by decide) rfl, Routine.copy_eq_inputMismatch hx]
    simp [MissesLines, MissesCharacter, MissesCell, hq, hx]
  case inr.inr.inr.inl =>
    obtain ⟨d, rfl⟩ := List.length_eq_one_iff.1 hfields
    obtain ⟨x, y, hx⟩ := List.length_eq_two.1 hargs
    rw [fault?_step_routine hq (by decide) rfl, Routine.get_eq_inputMismatch d hx]
    simp [MissesLines, MissesCharacter, MissesCell, hq, hx]
  case inr.inr.inr.inr =>
    obtain ⟨d, rfl⟩ := List.length_eq_one_iff.1 hfields
    rw [fault?_step_routine hq (by decide) rfl, Routine.input_eq_inputMismatch d]
    simp [MissesLines, MissesCharacter, MissesCell, hq, Nat.le_antisymm_iff, hcount]

end Program

theorem Routine.of_isApart (hw : Quad.IsApart w) (h : ofName? w = some r) :
    w = "GOTO" ∧ r = goto ∨ w = "ENDPROC" ∧ r = endproc ∨ w = "GOTOF" ∧ r = gotof ∨ w = "ACCESS" ∧
      r = access ∨ w = "VER" ∧ r = ver := by
  unfold ofName? at h
  split at h <;> cases h <;> first | exact absurd hw (by decide) | simp

/-- Checks and accesses have fields. -/
theorem Quad.At.exists_cons {N : Scope → Prop} {rs : List Reservation} {bs : List Int}
    {qs : Array Quad} {k : Nat} {xs : List Field} (h : Quad.At N rs bs qs k (.word w :: xs))
    (hw : w = "ACCESS" ∨ w = "VER") : ∃ y ys, xs = y :: ys := by
  generalize hq : Field.word w :: xs = q at h
  cases h with
  | plain h =>
    cases h with
    | special hs =>
      obtain rfl := Field.word.inj (List.cons.inj hq).1
      rcases hw with rfl | rfl <;> simp [Special.signature?] at hs
    | copy | goto =>
      obtain rfl := Field.word.inj (List.cons.inj hq).1
      simp at hw
    | _ => exact ⟨_, _, (List.cons.inj hq).2⟩
  | gosub | access => exact ⟨_, _, (List.cons.inj hq).2⟩

namespace Compiler.IsFed

variable {c : Compiler} {N : Scope → Prop} {ss : List Reservation} {bs : List Int} {k : Nat}
  {regions fs : List Region} {main : Nat} {xs : List Field}

/-- Quads that have to do with neither special functions nor calls never complain about input. -/
theorem apart_ne_inputMismatch (hplaced : Placed N ss bs c) (hr : Routed regions main c p)
    (hstands : Stands regions main c fs k m) (hq : c.quads[k]? = some (.word w :: xs))
    (hw : Quad.IsApart w) : (p.step k m).fault? ≠ some .inputMismatch := by
  have hquad : p.quad? k = some (w :: xs.map Field.text) := hr.program.quad?_eq_some hq
  cases ho : Operation.ofName? w with
  | some o =>
    rw [Ne, Program.fault?_step hquad, Program.execute, ho]
    intro herror
    have hdone : ∀ f, ((do o.perform (xs.map Field.text); return (none : Option Int) :
        Exec (Option Int)).runFrom m).1 = .error f →
        ((o.perform (xs.map Field.text)).runFrom m).1 = .error f := fun f => done_eq_error.1
    exact o.perform_ne_inputMismatch _ _ (hdone _ herror)
  | none =>
    cases hname : Routine.ofName? w with
    | none =>
      rw [Ne, Program.fault?_step hquad, Program.execute, ho]
      dsimp only
      rw [hname]
      exact fun h => by cases h
    | some r =>
      rw [Ne, Program.fault?_step_routine hquad ho hname]
      have hat := hplaced.quads k _ hq
      -- The return finds a record and a place to go to, the others find their fields.
      rcases Routine.of_isApart hw hname with ⟨rfl, rfl⟩ | ⟨rfl, rfl⟩ | hmore
      · obtain ⟨t, -, -, hfields, -⟩ := hr.laidOut.target hq (.inl rfl)
        rw [hfields rfl]
        exact Routine.perform_one_ne_inputMismatch rfl (ofValues_map _ (ofValues_integer _ _))
      · obtain ⟨r, gs, rfl, rfl⟩ := hstands.innermost hr hq
        refine Routine.perform_one_ne_inputMismatch rfl
          (ofValues_map _ (Routine.ofValues_leave _ ?_ ?_))
        · exact List.ne_nil_of_length_pos (by rw [hstands.records]; exact Nat.succ_pos _)
        · exact List.ne_nil_of_length_pos (by rw [hstands.returns.length]; exact Nat.succ_pos _)
      · obtain ⟨y, ys, rfl⟩ : ∃ y ys, xs = y :: ys := by
          rcases hmore with ⟨rfl, -⟩ | ⟨rfl, -⟩ | ⟨rfl, -⟩
          · obtain ⟨t, -, -, -, hfields⟩ := hr.laidOut.target hq (.inr rfl)
            obtain ⟨condition, rfl⟩ := hfields rfl
            exact ⟨_, _, rfl⟩
          · exact hat.exists_cons (.inl rfl)
          · exact hat.exists_cons (.inr rfl)
        have hr' : r = .gotof ∨ r = .access ∨ r = .ver :=
          hmore.imp And.right (Or.imp And.right And.right)
        refine Routine.perform_more_ne_inputMismatch ?_ (Routine.attempt_ne_inputMismatch hr')
        rcases hr' with rfl | rfl | rfl <;> rfl

/-- Which steps complain about the number of input lines. -/
theorem fault?_step (h : c.IsFed) (hplaced : Placed N ss bs c) (hr : Routed regions main c p)
    (hstands : Stands regions main c fs k m)
    (hm : m.parameters = (Quad.passed c.quads k).map Field.text)
    (hcount : m.inputCount ≤ m.inputs.size) :
    (p.step k m).fault? = some .inputMismatch ↔
      p.MissesLines m.inputs k m ∨ p.MissesCharacter k m ∨ p.MissesCell k m := by
  cases hq : c.quads[k]? with
  | none =>
    have hquad : p.quad? k = none := by
      rw [hr.program.quad?, hq]
      rfl
    rw [Program.fault?_step_end hquad]
    simp [Program.MissesLines, Program.MissesCharacter, Program.MissesCell, hquad,
      Nat.lt_iff_le_and_ne, hcount]
  | some q =>
    have hfed := (h.quads k q hq).1
    have hquad := hr.program.quad?_eq_some hq
    -- Only five special functions miss a line, a character or a cell.
    have hnever : ∀ {name : String} {fields : List String}, p.quad? k = some (name :: fields) →
        name ∉ ["print", "println", "copy", "get", "input"] →
          (p.step k m).fault? ≠ some .inputMismatch →
        ((p.step k m).fault? = some .inputMismatch ↔
          p.MissesLines m.inputs k m ∨ p.MissesCharacter k m ∨ p.MissesCell k m) :=
      fun hquad hname hne => iff_of_false hne (Program.not_misses hquad hname)
    generalize hargs : Quad.passed c.quads k = args at hfed hm
    cases hfed with
    | @apart w xs hw =>
      have hspecial : ∀ w ∈ ["print", "println", "copy", "get", "input"], ¬Quad.IsApart w := by
        decide
      exact hnever hquad (fun hmem => hspecial w hmem hw)
        (apart_ne_inputMismatch hplaced hr hstands hq hw)
    | param =>
      refine hnever hquad (by decide) ?_
      rw [Program.step_param hquad]
      exact fun h => by cases h
    | gosub =>
      refine hnever hquad (by decide) ?_
      rw [Ne, Program.fault?_step_routine (r := .gosub) hquad (by decide) rfl]
      exact Routine.perform_one_ne_inputMismatch rfl (ofValues_map _ (Routine.ofValues_enter _ _ _))
    | @special _ xs name s hs hlength hfields =>
      by_cases hname : name ∈ ["print", "println", "copy", "get", "input"]
      · exact Program.special_misses hquad hs (by simpa using hfields) (by simpa [hm] using hlength)
          hname hcount
      · have hfields' : (xs.map Field.text).length = s.result.toList.length := by
          simpa using hfields
        obtain ⟨r, ho, hr', hne⟩ := Routine.special_ne_inputMismatch (p := p) (i := k)
          (m := m) hs hfields'
          (by simpa [hm] using hlength) hname
        refine hnever hquad hname ?_
        rwa [Ne, Program.fault?_step_routine hquad ho hr']

end Compiler.IsFed

/-! ## Runs -/

/-- The input lines, and how many of them have been read. -/
def Machine.lines (m : Machine) : Array String × Nat :=
  (m.inputs, m.inputCount)

theorem Machine.hidesData_lines : HidesData lines := fun _ _ _ _ _ _ => rfl

/-- A line that is read was there. -/
theorem Routine.lines_readInput {d : String} (h : (readInput d).runFrom m = (.ok (), m')) :
    m'.inputs = m.inputs ∧ m'.inputCount = m.inputCount + 1 ∧ m.inputCount < m.inputs.size := by
  obtain ⟨_, _, hget, hrest⟩ := Attempt.bind_ok h
  cases hget
  split at hrest
  case h_1 => cases hrest
  case h_2 line hline =>
    obtain ⟨_, m₁, hstore, hmodify⟩ := Attempt.bind_ok hrest
    cases hmodify
    have hkeeps : Machine.lines _ = _ := keeps_store Machine.hidesData_lines (.str line) d m
    rw [hstore] at hkeeps
    obtain ⟨hinputs, hcount⟩ := Prod.mk.inj hkeeps
    exact ⟨hinputs, congrArg (· + 1) hcount, (Array.getElem?_eq_some_iff.1 hline).1⟩

namespace Program

variable {j : Int}

/-- No more lines are read than there are. -/
theorem lines_next (hm : m.inputCount ≤ m.inputs.size) (hstep : p.step i m = .next j m') :
    m'.inputs = m.inputs ∧ m'.inputCount ≤ m'.inputs.size := by
  have hsame : m'.lines = m.lines → m'.inputs = m.inputs ∧ m'.inputCount ≤ m'.inputs.size := by
    intro h
    obtain ⟨hinputs, hcount⟩ := Prod.mk.inj h
    rw [hinputs, hcount]
    exact ⟨rfl, hm⟩
  obtain ⟨name, fields, next, hq, hexec, -⟩ := step_next hstep
  rcases execute_ok hexec with ⟨o, ho, -, hperform⟩ | ⟨ho, r, hr, hperform⟩
  · have hkeeps := o.keeps_perform Machine.hidesData_lines fields m
    rw [hperform] at hkeeps
    exact hsame hkeeps
  -- Only `input` counts lines, one at a time.
  by_cases hinput : r = .input
  · subst hinput
    have hsingle : ∀ fields : List String, fields.length ≠ 1 → Routine.input.attempt p i fields =
        throw .mismatch := by
      intro fields hfields
      rcases fields with _ | ⟨d, _ | ⟨e, rest⟩⟩
      · rfl
      · exact absurd rfl hfields
      · rfl
    cases fields with
    | nil => cases hperform
    | cons d rest =>
      obtain ⟨_, m₁, hread, hpure⟩ :=
        Attempt.bind_ok (Routine.perform_ok_of_single hsingle hperform)
      cases hpure
      obtain ⟨hinputs, hcount, hlt⟩ := Routine.lines_readInput hread
      rw [hinputs, hcount]
      exact ⟨rfl, hlt⟩
  · have hkeeps : Keeps Machine.lines (r.perform p i name fields) :=
      Routine.keeps_perform (fun _ => Routine.keeps_attempt Machine.hidesData_lines
        (fun _ _ _ _ => rfl)
        (fun h => absurd h hinput) _) name fields
    have hlines := hkeeps m
    rw [hperform] at hlines
    exact hsame hlines

theorem run_eq_fault {n : Nat} :
    (p.run n i m).1 = .fault f ↔
      ∃ k j m₁, k < n ∧ p.run k i m = (.unfinished j, m₁) ∧ (p.step j m₁).fault? = some f := by
  induction n generalizing i m with
  | zero => simp [run]
  | succ n ih =>
    constructor
    · intro h
      rw [run] at h
      split at h
      case h_1 j m₁ hstep =>
        obtain ⟨k, j, m₂, hk, hrun, hfault⟩ := ih.1 h
        refine ⟨k + 1, j, m₂, Nat.succ_lt_succ hk, ?_, hfault⟩
        rw [run, hstep]
        exact hrun
      case h_2 => cases h
      case h_3 g m₁ hstep =>
        cases h
        exact ⟨0, i, m, Nat.succ_pos n, rfl, by rw [hstep]; rfl⟩
    · rintro ⟨k, j, m₁, hk, hrun, hfault⟩
      cases k with
      | zero =>
        cases hrun
        rw [run]
        cases hstep : p.step i m with
        | failed g m₂ =>
          rw [hstep] at hfault
          cases hfault
          rfl
        | next | halted =>
          rw [hstep] at hfault
          cases hfault
      | succ k =>
        rw [run] at hrun ⊢
        cases hstep : p.step i m with
        | next j m₂ =>
          rw [hstep] at hrun
          exact ih.2 ⟨k, _, _, Nat.lt_of_succ_lt_succ hk, hrun, hfault⟩
        | halted | failed =>
          rw [hstep] at hrun
          cases hrun

end Program

namespace Compiled

variable {line : Nat} {source : String}

/-- A run of an accepted source complains about the number of its input lines exactly if a line is
missing or left over, a character is missing from a text, or an operand has no cell. -/
theorem inputMismatch_iff (h : (ofSource line source).rejection = none) (randoms : Nat → Value)
    (inputs : Array String) (limit : Nat) :
    (((ofSource line source).play randoms inputs limit).1 = .fault .inputMismatch ↔
      ∃ n k m, n < limit ∧ (ofSource line source).play randoms inputs n = (.unfinished k, m) ∧
        ((ofSource line source).program.MissesLines inputs k m ∨
          (ofSource line source).program.MissesCharacter k m ∨
          (ofSource line source).program.MissesCell k m)) ∧
    (HasRoom line source → HasNoPower line source → (∀ n, (randoms n).HasTy .dec) →
      ∀ n k m, (ofSource line source).play randoms inputs n = (.unfinished k, m) →
        ¬(ofSource line source).program.MissesCell k m) := by
  obtain ⟨tree, -, hruns⟩ := exists_runs h
  have htidy := (tree.laidOut hruns).1
  obtain ⟨ss, bs, hplaced⟩ := htidy.exists_placed
  have hfed : (ofSource line source).state.IsFed := htidy.fed Compiler.isFed_empty
  obtain ⟨regions, main, hr, -⟩ := exists_routed h
  constructor
  · refine Program.run_eq_fault.trans ?_
    refine exists_congr fun n => exists_congr fun i => exists_congr fun m =>
      and_congr_right fun _ => and_congr_right fun hplay => ?_
    have hsteps := Program.run_eq_unfinished.1 hplay
    obtain ⟨fs, k, rfl, hstands, hparameters⟩ := hfed.handed_steps hr (.start rfl rfl) rfl hsteps
    have hlines : m.inputs = inputs ∧ m.inputCount ≤ m.inputs.size := by
      refine hsteps.invariant (I := fun _ m => m.inputs = inputs ∧ m.inputCount ≤ m.inputs.size)
        (fun hstep hm => ?_)
        ⟨rfl, Nat.zero_le _⟩
      obtain ⟨hinputs, hcount⟩ := Program.lines_next hm.2 hstep
      exact ⟨hinputs.trans hm.1, hcount⟩
    have hfault := hfed.fault?_step hplaced hr hstands hparameters hlines.2
    rwa [hlines.1] at hfault
  · intro hroom hpow hrandoms n i m hplay hmisses
    obtain ⟨rs, bs, hsafe⟩ := exists_isSafe h hroom hpow
    have hlive : Live _ rs 0 _ := .start (isPlain h hpow) hrandoms inputs
    obtain ⟨fs, k, rfl, -, hlive⟩ :=
      hlive.steps hsafe hr (.start rfl rfl) (Program.run_eq_unfinished.1 hplay)
    -- What is handed over are places that were given, and they have cells.
    have hcells : ∀ x ∈ m.parameters, ¬m.memory.Lacks x := by
      intro x hx
      rw [hlive.parameters] at hx
      obtain ⟨f, hf, rfl⟩ := List.mem_map.1 hx
      obtain ⟨t, hgiven⟩ := Quad.forall_mem_passed (fun i q hq =>
        (hsafe.placed.quads i q hq).stored) k f hf
      exact hlive.typed.memory.not_lacks hsafe.roomy hgiven
    rcases hmisses with ⟨_, x, rest, -, -, hm, hlacks⟩ | ⟨x, y, rest, -, hm, hlacks | ⟨-, hlacks⟩⟩
    · exact hcells x (by simp [hm]) hlacks
    · exact hcells y (by simp [hm]) hlacks
    · exact hcells x (by simp [hm]) hlacks

/-- A character that is missing is reported as a missing line. -/
theorem inputMismatch_get :
    let c := ofSource 1 "program p; println(get(\"abc\", 5));"
    c.rejection = none ∧ (c.play (fun _ => .dec 0.5) #[] 10).1 = .fault .inputMismatch ∧
      ∃ n k m, n < 10 ∧ c.play (fun _ => .dec 0.5) #[] n = (.unfinished k, m) ∧
        ¬c.program.MissesLines #[] k m ∧ c.program.MissesCharacter k m := by
  intro c
  have haccepted : c.rejection = none := by
    decide +kernel
  have hroom : HasRoom 1 "program p; println(get(\"abc\", 5));" := by
    decide +kernel
  have hpow : HasNoPower 1 "program p; println(get(\"abc\", 5));" := by
    decide +kernel
  have hfault : (c.play (fun _ => .dec 0.5) #[] 10).1 = .fault .inputMismatch := by
    decide +kernel
  have hcode : ∀ q ∈ c.program.code, q.head? ≠ some "input" := by
    decide +kernel
  have hiff := inputMismatch_iff haccepted (fun _ => .dec 0.5) #[] 10
  obtain ⟨n, k, m, hn, hplay, hmisses⟩ := hiff.1.1 hfault
  have hcell := hiff.2 hroom hpow (fun _ => trivial) n k m hplay
  -- No quad asks for a line, and there are none that could be left over.
  have hlines : ¬c.program.MissesLines #[] k m := by
    rintro (⟨d, hq, -⟩ | ⟨-, hlt⟩)
    · rw [Program.quad?] at hq
      split_ifs at hq
      · exact hcode _ (Array.mem_of_getElem? hq) rfl
      · exact hcode _ (Array.mem_of_getElem? hq) rfl
    · exact absurd hlt (Nat.not_lt_zero _)
  have hcharacter := (hmisses.resolve_left hlines).resolve_right hcell
  exact ⟨haccepted, hfault, n, k, m, hn, hplay, hlines, hcharacter⟩

end Compiled

end Symphony
