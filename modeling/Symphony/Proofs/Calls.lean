import Symphony.Proofs.ControlFlow

/-!
# Calls

A call begins with the step that enters a function and ends with the step that leaves it. In between
the saved record of the caller lies under those of the calls that the function makes (`Inside`).

**Theorem (`Program.Call.returned`).** A call that ends goes on after the quad that made it. The
local cells are those of the caller again, but for the cell of the result.
-/

namespace Symphony

variable {m' : Machine}

namespace Program

/-- Steps during which more calls are open than a given number. -/
inductive Within (p : Program) (d : Nat) : Int → Machine → Int → Machine → Prop
  | refl {i : Int} {m : Machine} : d < m.records.length → Within p d i m i m
  | step {i j k : Int} {m m' m'' : Machine} :
      d < m.records.length → p.step i m = .next j m' → Within p d j m' k m'' → Within p d i m k m''

/-- A call from the step that enters the function to the one that leaves it. That last step is made
at the index `l` with the machine `inner`. -/
def Call (p : Program) (i : Int) (m : Machine) (l : Int) (inner : Machine) (j : Int)
    (m' : Machine) : Prop :=
  ∃ k m₁, p.step i m = .next k m₁ ∧ p.Within m.records.length k m₁ l inner ∧
    p.step l inner = .next j m' ∧ m'.records.length = m.records.length

theorem Within.lt {p : Program} {d : Nat} {i j : Int} {m : Machine} (h : p.Within d i m j m') :
    d < m.records.length := by
  cases h with
  | refl h => exact h
  | step h => exact h

end Program

variable {rs fs : List Region} {main k : Nat} {c : Compiler} {p : Program} {m : Machine}
  {r : Region}

/-- A run is inside a call that was made at an index: the function or one that it has called,
directly or not, is being executed. -/
structure Inside (rs : List Region) (main : Nat) (c : Compiler) (fs : List Region) (k : Nat)
    (m : Machine) (r : Region) (gs : List Region) (i : Nat) (m' : Machine) : Prop where
  stands : Stands rs main c (gs ++ r :: fs) i m'
  records : ∃ bs : List Bank, bs.length = gs.length ∧
    m'.records = bs ++ m.memory.locals :: m.records
  returns : ∃ as : List Int, as.length = gs.length ∧ m'.returns = as ++ (k : Int) :: m.returns

/-- The caller goes on with its own local cells and with the result of the function. -/
def Machine.returned (m inner : Machine) (f : Function) : Machine :=
  { inner with
    memory := { inner.memory with locals := Routine.restored f inner.memory.locals m.memory.locals }
    records := m.records
    returns := m.returns }

namespace Inside

variable {gs hs : List Region} {i j : Nat} {inner : Machine}

/-- Every move from inside a call stays inside or ends it. -/
theorem move (hr : Routed rs main c p) (h : Inside rs main c fs k m r gs i inner)
    (hmove : Moves rs main c p (gs ++ r :: fs) i inner hs j m') :
    (∃ gs', hs = gs' ++ r :: fs ∧ Inside rs main c fs k m r gs' j m') ∨
      (gs = [] ∧ j = k + 1 ∧ hs = fs ∧ ∃ f, p.function? r.name = some f ∧
        m' = m.returned inner f) := by
  obtain ⟨bs, hbs, hrecords⟩ := h.records
  obtain ⟨as, has, hreturns⟩ := h.returns
  have hstands := h.stands.move hr hmove
  cases hmove with
  | stay _ _ hcalls =>
    refine .inl ⟨gs, rfl, hstands, ⟨bs, hbs, ?_⟩, ⟨as, has, ?_⟩⟩
    · rw [show m'.records = inner.records from (Prod.mk.inj hcalls).1, hrecords]
    · rw [show m'.returns = inner.returns from (Prod.mk.inj hcalls).2, hreturns]
  | @call s _ _ _ _ _ _ _ hm' =>
    refine .inl ⟨s :: gs, rfl, hstands, ⟨inner.memory.locals :: bs, by simp [hbs], ?_⟩,
      ⟨i :: as, by simp [has], ?_⟩⟩
    · rw [hm', List.cons_append, hrecords]
    · rw [hm', List.cons_append, hreturns]
  | @close s _ f saved records j returns hfs _ hf hrec hret =>
    rw [hrecords] at hrec
    rw [hreturns] at hret
    cases gs with
    -- The last record inside is the one the call has saved.
    | nil =>
      obtain rfl := List.eq_nil_of_length_eq_zero hbs
      obtain rfl := List.eq_nil_of_length_eq_zero has
      obtain ⟨rfl, rfl⟩ := List.cons.inj hfs
      obtain ⟨rfl, rfl⟩ := List.cons.inj hrec
      obtain ⟨hj, rfl⟩ := List.cons.inj hret
      obtain rfl := Int.ofNat.inj hj
      exact .inr ⟨rfl, rfl, rfl, f, hf, rfl⟩
    | cons g gs =>
      obtain ⟨b, bs, rfl⟩ := List.exists_cons_of_length_eq_add_one hbs
      obtain ⟨a, as, rfl⟩ := List.exists_cons_of_length_eq_add_one has
      obtain ⟨rfl, rfl⟩ := List.cons.inj hfs
      obtain ⟨rfl, rfl⟩ := List.cons.inj hrec
      obtain ⟨-, rfl⟩ := List.cons.inj hret
      exact .inl ⟨gs, rfl, hstands, ⟨bs, by simpa using hbs, rfl⟩, ⟨as, by simpa using has, rfl⟩⟩

theorem lt (h : Inside rs main c fs k m r gs i inner) :
    m.records.length < inner.records.length := by
  obtain ⟨bs, -, hrecords⟩ := h.records
  rw [hrecords, List.length_append, List.length_cons]
  omega

/-- Steps during which the call stays open stay inside. -/
theorem within (hr : Routed rs main c p) (h : Inside rs main c fs k m r gs i inner) {l : Int}
    (hwithin : p.Within m.records.length i inner l m') :
    ∃ gs' l', l = (l' : Nat) ∧ Inside rs main c fs k m r gs' l' m' := by
  generalize hi : (i : Int) = i' at hwithin
  induction hwithin generalizing gs i with
  | refl =>
    subst hi
    exact ⟨gs, i, rfl, h⟩
  | step _ hstep hrest ih =>
    subst hi
    obtain ⟨hs, j, rfl, hmove⟩ := h.stands.moves hr hstep
    rcases h.move hr hmove with ⟨gs', rfl, hinside⟩ | ⟨-, -, -, f, -, rfl⟩
    · exact ih hinside rfl
    · exact absurd hrest.lt (Nat.lt_irrefl _)

end Inside

namespace Program.Call

variable {l j : Int} {inner : Machine}

/-- A call enters the region of a function. -/
theorem entered (hr : Routed rs main c p) (h : Stands rs main c fs k m)
    (hcall : p.Call k m l inner j m') :
    ∃ r ∈ rs, ∃ f, c.quads[k]? = some [.word "GOSUB", .word r.name] ∧ p.function? r.name = some f ∧
      (zone main c fs).1 ≤ k ∧ k < (zone main c fs).2 ∧
      ∃ m₁, p.step k m = .next r.start m₁ ∧ p.Within m.records.length r.start m₁ l inner ∧
        m₁ = { m with
          memory := { m.memory with locals := m₁.memory.locals }
          records := m.memory.locals :: m.records
          returns := k :: m.returns
          parameters := [] } ∧
        Inside rs main c fs k m r [] r.start m₁ := by
  obtain ⟨i, m₁, hstep, hwithin, -, -⟩ := hcall
  obtain ⟨gs, i, rfl, hmove⟩ := h.moves hr hstep
  have hstands := h.move hr hmove
  have hlt := hwithin.lt
  cases hmove with
  | stay _ _ hcalls =>
    rw [show m₁.records = m.records from (Prod.mk.inj hcalls).1] at hlt
    exact absurd hlt (Nat.lt_irrefl _)
  | @call r f _ hmem hq hlo hhi hf hm₁ =>
    refine ⟨r, hmem, f, hq, hf, hlo, hhi, m₁, hstep, hwithin, hm₁, hstands, ⟨[], rfl, ?_⟩,
      ⟨[], rfl, ?_⟩⟩
    · rw [hm₁]
      rfl
    · rw [hm₁]
      rfl
  | close _ _ _ hrecords =>
    simp only [hrecords, List.length_cons] at hlt
    omega

/-- A call that ends goes on after the quad that made it, with the local cells of the caller and the
result. -/
theorem returned (hr : Routed rs main c p) (h : Stands rs main c fs k m)
    (hcall : p.Call k m l inner j m') :
    ∃ r ∈ rs, ∃ f, c.quads[k]? = some [.word "GOSUB", .word r.name] ∧ p.function? r.name = some f ∧
      j = (k + 1 : Nat) ∧ m' = m.returned inner f ∧ Stands rs main c fs (k + 1) m' := by
  obtain ⟨r, hmem, f, hq, hf, -, -, m₁, -, hwithin, -, hinside⟩ := hcall.entered hr h
  obtain ⟨_, _, -, -, hlast, hlength⟩ := hcall
  obtain ⟨gs, l, rfl, hinner⟩ := hinside.within hr hwithin
  obtain ⟨hs, j, rfl, hmove⟩ := hinner.stands.moves hr hlast
  rcases hinner.move hr hmove with ⟨gs', rfl, hin⟩ | ⟨rfl, rfl, rfl, f', hf', rfl⟩
  · have := hin.lt
    omega
  · obtain rfl := Option.some.inj (hf.symm.trans hf')
    exact ⟨r, hmem, f, hq, hf, rfl, rfl, hinner.stands.move hr hmove⟩

end Program.Call

end Symphony
