import Symphony.Proofs.Growth
import Symphony.Proofs.Provenance
import Symphony.Proofs.Stacks
import Symphony.Proofs.Values

/-!
# Literals and powers

Constants are values of their type, because every literal is. In a source without powers no quad
raises to one (`Compiled.isPlain`). Both facts are about tokens; the compiler keeps what holds of
the events that they bring about.
-/

namespace Symphony

variable {isGlobal : Bool}

/-! ## Events -/

/-- An event of a source without powers. A literal is a value of its type. -/
def Event.IsPlain : Event → Prop
  | .constant t v => v.HasTy t
  | .power => False
  | .chain o | .fold o => o ≠ .pow
  | _ => True

theorem Level.operator?_ne_pow {l : Level} {t : Token} {o : BinOp} (h : l.operator? t = some o) :
    o ≠ .pow := by
  cases l with
  | product =>
    change t.multiplicative? = _ at h
    unfold Token.multiplicative? at h
    split at h <;> cases h <;> decide
  | sum =>
    change t.additive? = _ at h
    unfold Token.additive? at h
    split at h <;> cases h <;> decide
  | relation =>
    change t.comparison? = _ at h
    unfold Token.comparison? at h
    split at h <;> cases h <;> decide
  | logic =>
    change t.connective? = _ at h
    unfold Token.connective? at h
    split at h <;> cases h <;> decide

/-- A token other than a power brings about plain events. -/
theorem Token.Brings.isPlain {t : Token} {e : Event} (h : t.Brings e) (ht : t ≠ .symbol .power) :
    e.IsPlain := by
  cases e with
  | constant ty v => cases t <;> cases h <;> simp [Event.IsPlain, Value.HasTy]
  | power =>
    cases t with
    | symbol s => cases s <;> first | exact absurd rfl ht | cases h
    | _ => cases h
  | chain o | fold o =>
    obtain ⟨l, hl⟩ := h
    exact Level.operator?_ne_pow hl
  | _ => trivial

/-- The events of a source without powers. -/
theorem Trace.isPlain_ofSource {line : Nat} {source : String}
    (h : ∀ l ∈ (Lexemes.scan line source).list, l.token ≠ .symbol .power) :
    ∀ e ∈ (ofSource line source).events, e.IsPlain := by
  refine forall_events (fun e he => ?_) fun l hl e he => he.isPlain (h l hl)
  cases e <;> trivial

/-! ## The compiler -/

namespace Compiler

variable {c c' : Compiler}

/-- Constants are values of their type, and no quad raises to a power. -/
structure IsPlain (c : Compiler) : Prop where
  constants : ∀ t, ∀ x ∈ c.constants.get t, x.1.HasTy t
  chained : ∀ w ∈ c.chained, w ≠ BinOp.pow.symbol
  quads : ∀ (k : Nat) (q : Quad), c.quads[k]? = some q →
    ∃ w fs, q = .word w :: fs ∧ w ≠ BinOp.pow.symbol

theorem symbol_ne_pow {o : BinOp} (h : o ≠ .pow) : o.symbol ≠ BinOp.pow.symbol := by
  intro heq
  have hsome := BinOp.ofSymbol?_symbol o
  rw [heq, BinOp.ofSymbol?_symbol] at hsome
  exact h (Option.some.inj hsome).symm

theorem DeclaresStep.constants {d : Declaration} (hd : DeclaresStep isGlobal d c c') :
    c'.constants = c.constants := by
  cases hd with
  | one hd => cases hd <;> rfl
  | kind | address => rfl

variable {e : Event}

/-- Constants come from literals. -/
theorem Acts.mem_constants (ha : Acts e c c') {t : Ty} {x : Value × Int}
    (hx : x ∈ c'.constants.get t) : x ∈ c.constants.get t ∨ e = .constant t x.1 := by
  have hsame : c'.constants = c.constants → x ∈ c.constants.get t ∨ e = .constant t x.1 :=
    fun h => .inl (h ▸ hx)
  cases ha with
  | declareGlobals hv => exact hsame (hv.keeps (fun _ _ _ _ hs h => hs.constants.trans h) rfl)
  | declareLocals hp hv =>
    exact hsame (hv.keeps (fun _ _ _ _ hs h => hs.constants.trans h)
      (hp.keeps (fun _ _ _ _ hs h => hs.constants.trans h) rfl))
  | @newConstant _ u v =>
    change x ∈ (c.constants.set u (c.constants.get u ++ [(v, c.next .constants u)])).get t at hx
    by_cases ht : t = u
    · subst ht
      rw [PerTy.get_set_self] at hx
      rcases List.mem_append.1 hx with hx | hx
      · exact .inl hx
      · rw [List.mem_singleton.1 hx]
        exact .inr rfl
    · rw [PerTy.get_set_of_ne _ _ ht] at hx
      exact .inl hx
  | power _ hop =>
    cases hop
    exact .inl hx
  | fold _ hfold => exact hsame (congrArg constants hfold.rest_eq :)
  | giveBack | closeLoop =>
    rw [completeAll_eq] at hx
    exact .inl hx
  | _ => exact .inl hx

theorem Emitted.exists_word {q : Quad} (h : Emitted e c c' q) (he : e.IsPlain)
    (hc : ∀ w ∈ c.chained, w ≠ BinOp.pow.symbol) :
    ∃ w fs, q = .word w :: fs ∧ w ≠ BinOp.pow.symbol := by
  cases h with
  | binary o _ _ ho =>
    refine ⟨_, _, rfl, ?_⟩
    cases e with
    | power => exact he.elim
    | fold =>
      rcases List.mem_cons.1 ho with heq | ho
      · exact heq ▸ symbol_ne_pow he
      · exact hc _ ho
    | _ => cases ho
  | @unary o | @update o => exact ⟨_, _, rfl, by cases o <;> decide⟩
  | special _ hs => exact ⟨_, _, rfl, by rintro rfl; cases hs⟩
  | _ => exact ⟨_, _, rfl, by decide⟩

/-- Every plain event keeps the compiler plain. -/
theorem Acts.isPlain (ha : Acts e c c') (he : e.IsPlain) (h : IsPlain c) : IsPlain c' where
  constants t x hx := by
    rcases ha.mem_constants hx with hx | rfl
    · exact h.constants t x hx
    · exact he
  chained := by
    rw [ha.chained]
    cases e with
    | chain o => exact List.forall_mem_cons.2 ⟨symbol_ne_pow he, h.chained⟩
    | fold => exact List.forall_mem_nil _
    | _ => exact h.chained
  quads k q hq := by
    rcases Nat.lt_or_ge k c.quads.size with hk | hk
    · -- an old quad may have got more fields
      have hold := Array.getElem?_eq_getElem hk
      obtain ⟨w, fs, hword, hw⟩ := h.quads k _ hold
      obtain ⟨gs, hgrown⟩ := ha.grown hold
      rw [hword] at hgrown
      obtain rfl := Option.some.inj (hgrown.symm.trans hq)
      exact ⟨w, fs ++ gs, rfl, hw⟩
    · by_cases hquiet : e.isQuiet = true
      · exact ((ha.emitted hquiet).of_getElem? hk hq).exists_word he h.chained
      · obtain ⟨q₀, fs, hmarks, rfl, -⟩ := ha.exists_marks hquiet hk hq
        cases hmarks <;> exact ⟨_, _, rfl, by decide⟩

theorem RunsBy.isPlain {es : List Event} (hr : Runs es c c') (hes : ∀ e ∈ es, e.IsPlain)
    (h : IsPlain c) : IsPlain c' := by
  induction hr with
  | nil => exact h
  | cons ha _ ih =>
    obtain ⟨hfirst, hrest⟩ := List.forall_mem_cons.1 hes
    exact ih hrest (Acts.isPlain ha hfirst h)

theorem isPlain_empty : IsPlain {} where
  constants t x hx := by simp [PerTy.get_ofFn] at hx
  chained := nofun
  quads k q hk := by simp at hk

end Compiler

namespace Compiled

/-- A source in which no power is written. -/
def HasNoPower (line : Nat) (source : String) : Prop :=
  ∀ l ∈ (Lexemes.scan line source).list, l.token ≠ .symbol .power

instance (line : Nat) (source : String) : Decidable (HasNoPower line source) :=
  inferInstanceAs (Decidable (∀ l ∈ (Lexemes.scan line source).list, l.token ≠ .symbol .power))

theorem isPlain {line : Nat} {source : String} (h : (ofSource line source).rejection = none)
    (hpow : HasNoPower line source) : (ofSource line source).state.IsPlain := by
  obtain ⟨tree, htree, hruns⟩ := exists_runs h
  refine hruns.isPlain ?_ Compiler.isPlain_empty
  rw [htree]
  exact Trace.isPlain_ofSource hpow

end Compiled

end Symphony
