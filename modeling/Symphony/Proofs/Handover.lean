import Symphony.Proofs.Termination
import Symphony.Proofs.Typing

/-!
# Operands that are handed over

Operands are handed over one by one, right before the quad that takes them, and nothing comes in
between. So at every index the code tells which operands have been handed over and not yet taken
(`Quad.passed`). A special function finds as many as it has parameters, and quads that take none
find none (`Quad.Fed`).

**Theorem (`RunsBy.fed`).** This holds of all code that is emitted, whatever the operands are and
wherever they stand: no region of addresses needs to have room.

An event hands over operands only together with the quad that takes them. Jumps and calls go to
places between events, so nothing has been handed over there (`IsFed.passed_move`).
-/

namespace Symphony

variable {e : Event}

namespace Quad

/-- Quads that start with this word neither hand over operands nor take any. -/
def IsApart (w : String) : Prop :=
  w ≠ "PARAM" ∧ w ≠ "GOSUB" ∧ (Special.signature? w).isNone = true

instance (w : String) : Decidable (IsApart w) :=
  inferInstanceAs (Decidable (_ ∧ _ ∧ _))

theorem isApart_symbol (o : BinOp) : IsApart o.symbol := by
  cases o <;> decide

theorem isApart_mnemonic (o : UnOp) : IsApart o.mnemonic := by
  cases o <;> decide

/-- A quad finds the operands that it takes. -/
inductive Fed : List Field → Quad → Prop
  | apart {w : String} (fs : List Field) : IsApart w → Fed [] (.word w :: fs)
  | param (args : List Field) (x i : Field) : Fed args [.word "PARAM", x, i]
  | gosub (args : List Field) (name : String) : Fed args [.word "GOSUB", .word name]
  | special {args fs : List Field} {name : String} {s : Special.Signature} :
      Special.signature? name = some s → args.length = s.parameters.length →
      fs.length = s.result.toList.length → Fed args (.word name :: fs)

variable {qs qs' : Array Quad} {q : Quad} {args fs : List Field} {es : List Int} {w : String}

theorem Fed.exists_word (h : q.Fed args) : ∃ w fs, q = .word w :: fs := by
  cases h <;> exact ⟨_, _, rfl⟩

theorem Fed.eq_nil (h : Fed args (.word w :: fs)) (hw : IsApart w) : args = [] := by
  generalize hq : Field.word w :: fs = q at h
  cases h with
  | apart => rfl
  | param => exact absurd (Field.word.inj (List.cons.inj hq).1) hw.1
  | gosub => exact absurd (Field.word.inj (List.cons.inj hq).1) hw.2.1
  | special hs =>
    obtain rfl := Field.word.inj (List.cons.inj hq).1
    simp [IsApart, hs] at hw

/-- A quad finds its operands, and it jumps only to places where nothing has been handed over. -/
abbrev feeding : Demand where
  holds T args q := q.Fed args ∧ ∀ j : Nat, q.JumpsTo j → T j
  mono h hT := ⟨h.1, fun j hj => hT j (h.2 j hj)⟩

/-- All quads so far find their operands. -/
abbrev CodeFed : List Field → Array Quad → List Int → Prop :=
  feeding.Throughout

theorem CodeFed.push_plain (h : CodeFed [] qs es) (fs : List Field) (hw : IsApart w)
    (hplain : w ≠ "GOTO" ∧ w ≠ "GOTOF") : CodeFed [] (qs.push (.word w :: fs)) es :=
  h.push_word ⟨.apart fs hw, fun _ hj => absurd hj (not_jumpsTo_of_word hplain)⟩ hw.1

/-- Operands are handed over to the quad that takes them. -/
theorem CodeFed.hand (h : CodeFed [] qs es) (xs : List Operand) (hw : w ≠ "PARAM")
    (hplain : w ≠ "GOTO" ∧ w ≠ "GOTOF") (hq : Fed (xs.map Operand.place).reverse (.word w :: fs)) :
    CodeFed [] ((qs ++ Compiler.passing 1 xs).push (.word w :: fs)) es :=
  h.call (fun _ _ _ _ _ => ⟨.param .., fun _ hj => absurd hj (not_jumpsTo_of_word (by decide))⟩) hw
    fun _ => ⟨hq, fun _ hj => absurd hj (not_jumpsTo_of_word hplain)⟩

/-- Quads that have nothing to do with operands get more fields. -/
theorem Fed.grown {T : Int → Prop} (h : Fed args (.word w :: fs)) (hw : IsApart w)
    (fs' : List Field) (hjump : ∀ j : Nat, JumpsTo (.word w :: fs') j → T j) :
    passes? (.word w :: fs) = none ∧ passes? (.word w :: fs') = none ∧
      feeding.holds T args (.word w :: fs') := by
  obtain rfl := h.eq_nil hw
  exact ⟨passes?_eq_none hw.1 _, passes?_eq_none hw.1 _, .apart fs' hw, hjump⟩

theorem Waits.exists_apart (h : q.Waits) (ts : List Int) :
    ∃ w fs fs', IsApart w ∧ q = .word w :: fs ∧ q ++ ts.map .num = .word w :: fs' := by
  rcases h with rfl | ⟨x, rfl⟩
  · exact ⟨"GOTO", [], _, by decide, rfl, rfl⟩
  · exact ⟨"GOTOF", [x], _, by decide, rfl, rfl⟩

/-- A jump that waits gets targets. -/
theorem Waits.fed {T : Int → Prop} (h : q.Waits) (hq : feeding.holds T args q) {ts : List Int}
    (hts : ∀ t ∈ ts, T t) :
    q.passes? = none ∧ passes? (q ++ ts.map .num) = none ∧
      feeding.holds T args (q ++ ts.map .num) := by
  obtain ⟨w, fs, fs', hapart, rfl, heq⟩ := h.exists_apart ts
  rw [heq]
  exact hq.1.grown hapart fs' fun j hj => hts j (h.mem_of_jumpsTo (heq ▸ hj))

end Quad

namespace Compiler

open Quad

variable {c c' : Compiler} {es : List Int}

theorem Operates.fed {op : String} {l r o : Operand} (h : Operates op l r c o c')
    (hcode : CodeFed [] c.quads es) : CodeFed [] c'.quads es := by
  cases h with
  | @mk b lt rt t _ _ hb =>
    obtain rfl : b.symbol = op := by simpa using List.find?_some hb
    exact hcode.push_plain _ (isApart_symbol b) (by cases b <;> decide)

theorem Folds.fed {l o : Operand} {rest : List (Operand × String)} (h : Folds l rest c o c')
    (hcode : CodeFed [] c.quads es) : CodeFed [] c'.quads es := by
  induction h with
  | nil => exact hcode
  | cons hop _ ih => exact ih (hop.fed hcode)

theorem fed_point {base n : Int} {t : Ty} {index : Field} (h : CodeFed [] c.quads es) :
    CodeFed [] (c.point base n t index).quads es :=
  (h.push_plain (w := "VER") _ (by decide) (by decide)).push_plain _ (by decide) (by decide)

theorem fed_enterFunction (h : CodeFed [] c.quads es) (name : Scope) (rest : List Scope) :
    CodeFed [] (c.enterFunction name rest).quads es :=
  h.hand c.arguments (by decide) (by decide) (.gosub _ _)

theorem Acts.fed_quiet (ha : Acts e c c') (he : e.isQuiet = true) (h : CodeFed [] c.quads es) :
    CodeFed [] c'.quads es := by
  cases ha with
  | useElement => exact fed_point h
  | assignVariable => exact h.push_plain _ (by decide) (by decide)
  | @assignElement _ _ v index right rest _ n t =>
    have hpoint : CodeFed [] ({ c with operands := rest, offset := none }.point v.address n t
        index.place).quads es :=
      fed_point h
    exact hpoint.push_plain _ (by decide) (by decide)
  | power _ hop => exact hop.fed h
  | fold _ hfold => exact hfold.fed h
  | @update _ o | @unary _ o => exact h.push_plain _ (isApart_mnemonic o) (by cases o <;> decide)
  | @callVoid _ written name rest => exact fed_enterFunction h name rest
  | @callKnown _ written name rest | @callSelf _ written name rest =>
    exact (fed_enterFunction h name rest).push_plain _ (by decide) (by decide)
  | specialVoid _ hs hlen _ hres =>
    obtain ⟨hgoto, hgotof, -⟩ := Special.ne_jump_of_signature? hs
    exact h.hand c.arguments (Special.ne_param hs) ⟨hgoto, hgotof⟩
      (.special hs (by simpa using hlen) (by simp [hres]))
  | specialValue _ hs hlen _ hres =>
    obtain ⟨hgoto, hgotof, -⟩ := Special.ne_jump_of_signature? hs
    exact h.hand c.arguments (Special.ne_param hs) ⟨hgoto, hgotof⟩
      (.special hs (by simpa using hlen) (by simp [hres]))
  | oldConstant | newConstant | dropSize | useVariable | selectElement | chain | beginCall
  | beginSpecial
  | argument => exact h
  | _ => cases he

/-- All quads find their operands, and nothing has been handed over where an event begins or where
the code may be entered. -/
def IsFed (c : Compiler) : Prop :=
  CodeFed [] c.quads c.entries

theorem Acts.fed_code (ha : Acts e c c') (ht : c.Tidy e) (h : c.IsFed) :
    CodeFed [] c'.quads ((c.quads.size : Int) :: c.entries) := by
  have hcode := h.mark
  by_cases he : e.isQuiet = true
  · exact ha.fed_quiet he hcode
  refine ha.throughout ht he hcode (fun q hq => ?_) Waits.fed fun _ _ _ _ gs hfed => ?_
  · cases hq with
    | goto =>
      exact hcode.push_word ⟨.apart _ (by decide), fun _ hj =>
        absurd hj (Waits.not_jumpsTo (.inl rfl) _)⟩ (by decide)
    | gotof =>
      exact hcode.push_word ⟨.apart _ (by decide), fun _ hj =>
        absurd hj (Waits.not_jumpsTo (.inr ⟨_, rfl⟩) _)⟩ (by decide)
    | endproc => exact CodeFed.push_plain hcode _ (by decide) (by decide)
    | @back i _ hi =>
      refine hcode.push_word ⟨.apart _ (by decide), fun j hj => ?_⟩ (by decide)
      have hji : (j : Int) ∈ [(i : Int)] :=
        Waits.mem_of_jumpsTo (q := [.word "GOTO"]) (.inl rfl) hj
      rw [List.mem_singleton.1 hji]
      exact hcode.entries _ (List.mem_cons_of_mem _
        (List.mem_append_left _ (List.mem_map.2 ⟨i, hi, rfl⟩)))
  · exact (hfed.1.grown (by decide) _ fun _ hj => absurd hj (not_jumpsTo_of_word (by decide))).2.2

/-- Every event keeps the code fed. -/
theorem Acts.fed (ha : Acts e c c') (ht : c.Tidy e) (h : c.IsFed) : c'.IsFed :=
  (ha.fed_code ht h).subset fun _ => ha.mem_entries

theorem isFed_empty : IsFed {} :=
  ⟨nofun, rfl, by simp [entries, heads, Function.opened, Clear, passed]⟩

theorem RunsBy.fed {events : List Event} (hr : TidyRuns events c c') (h : c.IsFed) : c'.IsFed := by
  induction hr with
  | nil => exact h
  | cons ha _ ih => exact ih (ha.1.fed ha.2 h)

/-! ## Where a run goes -/

theorem passed_of_clear {j : Nat} (h : Clear c.quads j) : passed c.quads j = [] := by
  obtain ⟨b, hb, -, hnil⟩ := h
  rwa [Int.ofNat.inj hb]

namespace IsFed

variable {p : Program} {k : Nat} {m m' : Machine} {q : Quad} {regions fs gs : List Region}
  {main : Nat}

/-- Nothing has been handed over where a function starts. -/
theorem start (h : c.IsFed) (hlaid : c.LaidOut regions main) {r : Region} (hmem : r ∈ regions) :
    passed c.quads r.start = [] := by
  have hhead : (some r.name, (r.start : Int)) ∈ c.heads := by
    rw [hlaid.heads, headsOf]
    exact List.mem_cons_of_mem _ (List.mem_map.2 ⟨r, hmem, rfl⟩)
  exact passed_of_clear (h.entries _ (List.mem_append_right _ (List.mem_map.2 ⟨_, hhead, rfl⟩)))

/-- The operands that have been handed over after a step. -/
theorem passed_move (h : c.IsFed) (hr : Routed regions main c p)
    (hstands : Stands regions main c fs k m) (hq : c.quads[k]? = some q) {j : Nat}
    (hmoves : Moves regions main c p fs k m gs j m') :
    passed c.quads j = q.passes?.elim [] (· :: passed c.quads k) := by
  cases hmoves with
  | stay _ _ _ hgoes =>
    rcases hgoes with rfl | ⟨q', hq', hjump⟩
    · rw [passed, hq, Option.bind_some]
      cases q.passes? <;> rfl
    · obtain rfl := Option.some.inj (hq.symm.trans hq')
      rw [passed_of_clear ((h.quads k q hq).2 j hjump)]
      rcases hjump with rfl | ⟨x, rfl⟩ <;> rfl
  | @call r f _ hmem hcall =>
    obtain rfl := Option.some.inj (hq.symm.trans hcall)
    exact h.start hr.laidOut hmem
  | @close r gs f saved records j returns hfs hend hf hrecords hreturns =>
    subst hfs
    obtain rfl := Option.some.inj (hq.symm.trans hend)
    have hreturned := hstands.returns
    rw [hreturns] at hreturned
    obtain ⟨⟨j', hj', hgosub, -⟩, -⟩ := hreturned
    obtain rfl := Int.ofNat.inj hj'
    rw [passed, hgosub]
    rfl

end IsFed

end Compiler

end Symphony
