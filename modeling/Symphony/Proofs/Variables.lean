import Symphony.Proofs.Growth
import Symphony.Proofs.Words

/-!
# The cells of variables

A variable has one cell, an array one for each element. When variables are declared, their cells are
handed out in between (`DeclaredSince`), and nothing in the body of a function declares more.
-/

namespace Symphony

variable {isGlobal : Bool} {s : Sector} {α : Type}

/-- The cells of a variable. -/
def Variable.Covers (v : Variable) (a : Int) : Prop :=
  match v.elements with
  | none => a = v.address
  | some (_, n) => v.address ≤ a ∧ a < v.address + n

namespace Compiler

variable {c c' c'' : Compiler}

/-- Variables that have come in are in cells of a sector that were handed out in between. -/
structure DeclaredSince (s : Sector) (c c' : Compiler) : Prop where
  next_le : ∀ u t, c.next u t ≤ c'.next u t
  cells : ∀ v ∈ c'.current.declared, v ∈ c.current.declared ∨
    ∀ a, v.Covers a → ∃ t, c.next s t ≤ a ∧ a < c'.next s t

theorem DeclaredSince.trans (h : DeclaredSince s c c') (h' : DeclaredSince s c' c'') :
    DeclaredSince s c c'' where
  next_le u t := Int.le_trans (h.next_le u t) (h'.next_le u t)
  cells v hv := by
    rcases h'.cells v hv with hv | hcells
    · refine (h.cells v hv).imp_right fun hcells a ha => ?_
      obtain ⟨t, hlo, hhi⟩ := hcells a ha
      exact ⟨t, hlo, Int.lt_of_lt_of_le hhi (h'.next_le s t)⟩
    · refine .inr fun a ha => ?_
      obtain ⟨t, hlo, hhi⟩ := hcells a ha
      exact ⟨t, Int.le_trans (h.next_le s t) hlo, hhi⟩

/-- The current function after a change. -/
theorem current_of_update (change : Function → Function)
    (h : c'.functions = c.functions.map fun f => if f.name = c.scope then change f else f)
    (hname : ∀ f, (change f).name = f.name) (hscope : c'.scope = c.scope) :
    c'.current = change c.current ∨ c'.current = c.current := by
  rw [current, current, hscope, function?_of_update h hname]
  cases hf : c.function? c.scope with
  | none => exact .inr rfl
  | some f =>
    left
    rw [Option.map_some, if_pos (name_of_function? hf)]
    rfl

/-- A change that does not matter for a field of functions. -/
theorem field_of_update (g : Function → α) {change : Function → Function}
    (h : c'.functions = c.functions.map fun f => if f.name = c.scope then change f else f)
    (hname : ∀ f, (change f).name = f.name) (hg : ∀ f, g (change f) = g f)
    (hscope : c'.scope = c.scope) : g c'.current = g c.current := by
  rcases current_of_update change h hname hscope with hc | hc
  · rw [hc, hg]
  · rw [hc]

/-- A change that declares nothing. -/
theorem DeclaredSince.of_update {change : Function → Function}
    (h : c'.functions = c.functions.map fun f => if f.name = c.scope then change f else f)
    (hname : ∀ f, (change f).name = f.name) (hdeclared : ∀ f, (change f).declared = f.declared)
    (hscope : c'.scope = c.scope) (hcounters : c'.counters = c.counters) :
    DeclaredSince s c c' where
  next_le u t := Int.le_of_eq (by rw [next, next, hcounters])
  cells v hv := .inl (by rwa [field_of_update Function.declared h hname hdeclared hscope] at hv)

/-- One more variable is declared. -/
theorem declaredSince_addVariable {t : Ty} {n : Int} (hn : 0 ≤ n) {v : Variable}
    (hv : ∀ a, v.Covers a → c.next s t ≤ a ∧ a < c.next s t + n) :
    DeclaredSince s c ((c.reserve s t n).addVariable v) where
  next_le u t' := by
    refine Int.le_trans ?_ (Int.le_of_eq (next_reserve c s u t t' n).symm)
    split <;> omega
  cells w hw := by
    rcases @current_of_update c ((c.reserve s t n).addVariable v)
      (fun f => { f with declared := f.declared ++ [v] }) rfl (fun _ => rfl) rfl with hc | hc
    · rw [hc] at hw
      rcases List.mem_append.1 hw with hw | hw
      · exact .inl hw
      · refine .inr fun a ha => ⟨t, ?_⟩
        rw [List.mem_singleton.1 hw] at ha
        have hnext : ((c.reserve s t n).addVariable v).next s t = c.next s t + n :=
          (next_reserve c s s t t n).trans (by simp)
        rw [hnext]
        exact hv a ha
    · rw [hc] at hw
      exact .inl hw

theorem DeclaresStep.declaredSince {d : Declaration} (h : DeclaresStep isGlobal d c c')
    (hsize : ∀ n ∈ sizesIn [d], 0 ≤ n) : DeclaredSince (variableSector isGlobal) c c' := by
  cases h with
  | one h =>
    cases h with
    | scalar =>
      refine declaredSince_addVariable (by decide) fun a ha => ?_
      obtain rfl : a = _ := ha
      exact ⟨Int.le_refl _, Int.lt_succ _⟩
    | array hextent =>
      exact declaredSince_addVariable (hsize _ (by simp [sizesIn, hextent])) fun a ha => ha
  | kind | address => exact .of_update rfl (fun _ => rfl) (fun _ => rfl) rfl rfl

theorem Acts.declaredSince {params vars : List Declaration}
    (h : Acts (.declareLocals params vars) c c')
    (hsize : ∀ n ∈ Event.extents (.declareLocals params vars), 0 ≤ n) :
    DeclaredSince .locals c c' := by
  cases h with
  | declareLocals hp hv =>
    rw [Event.extents, sizesIn, List.filterMap_append] at hsize
    obtain ⟨hps, hvs⟩ := List.forall_mem_append.1 hsize
    have h₁ : DeclaredSince .locals c c.markFirst :=
      .of_update rfl (fun _ => rfl) (fun _ => rfl) rfl rfl
    have h₂ := hp.keeps (fun d hd _ _ hs (h : DeclaredSince .locals c _) =>
      h.trans (hs.declaredSince fun n hn => hps n (mem_sizesIn hd hn))) h₁
    exact hv.keeps (fun d hd _ _ hs h =>
      h.trans (hs.declaredSince fun n hn => hvs n (mem_sizesIn hd hn))) h₂

/-- The events of a body change nothing in the current function but the place of its result. -/
theorem Acts.current_of_isInner (g : Function → α) (hg : ∀ f x, g { f with returnPlace := x } = g f)
    {e : Event} (ha : Acts e c c') (he : e.isInner = true) : g c'.current = g c.current := by
  have hsame : c'.functions = c.functions → c'.scope = c.scope → g c'.current = g c.current :=
    fun hf hs => by
    rw [current, current, function?, function?, hf, hs]
  by_cases hq : e.isQuiet = true
  · exact hsame (ha.quiet hq).functions (ha.quiet hq).scope
  · cases ha with
    | giveBack =>
      rw [completeAll_eq]
      exact field_of_update g rfl (fun _ => rfl) (fun f => hg f _) rfl
    | closeLoop =>
      rw [completeAll_eq] at hsame ⊢
      exact hsame rfl rfl
    | breakLoop | testIf | closeIf | elseBranch | markLoop | testLoop | leaveLoop =>
      exact hsame rfl rfl
    | declareGlobals | enterMain | finish | defineFunction | declareLocals | endFunction => cases he
    | _ => exact absurd rfl hq

theorem RunsBy.current_of_isInner (g : Function → α)
    (hg : ∀ f x, g { f with returnPlace := x } = g f) {es : List Event} (h : TidyRuns es c c')
    (hes : ∀ e ∈ es, e.isInner = true) : g c'.current = g c.current := by
  induction h with
  | nil => rfl
  | cons h _ ih =>
    exact (ih fun e he => hes e (List.mem_cons_of_mem _ he)).trans
      (h.1.current_of_isInner g hg (hes _ List.mem_cons_self))

/-- The events of a body declare nothing. -/
theorem RunsBy.declared_of_isInner {es : List Event} (h : TidyRuns es c c')
    (hes : ∀ e ∈ es, e.isInner = true) : c'.current.declared = c.current.declared :=
  h.current_of_isInner Function.declared (fun _ _ => rfl) hes

end Compiler

end Symphony
