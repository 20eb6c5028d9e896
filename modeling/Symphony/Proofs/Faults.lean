import Symphony.Machine.Run
import Symphony.Proofs.Flow

/-!
# Faults of values

Values and cells know nothing of the positions in a program or of its input. So whatever is computed
with them fails for one of a few reasons (`OfValues`), among which there is neither a position that
holds nothing nor the wrong number of input lines. The one exception is to take a character out of a
text (`Routine.characterOf_eq_absent`).
-/

namespace Symphony

/-- A fault that tells neither of a position that holds nothing nor of the number of input lines. -/
def Fault.isOfValues (f : Fault) : Bool :=
  !f.isPosition && f != .inputMismatch

/-- A computation that fails for reasons of values only. -/
def OfValues {α : Type} (x : Except Fault α) : Prop :=
  ∀ f, x = .error f → f.isOfValues = true

namespace OfValues

variable {α β : Type} {x : Except Fault α}

theorem ok (a : α) : OfValues (.ok a) := by
  intro f hf
  cases hf

theorem error (f : Fault) (h : f.isOfValues = true) : OfValues (.error f : Except Fault α) := by
  intro g hg
  cases hg
  exact h

theorem bind {g : α → Except Fault β} (hx : OfValues x) (hg : ∀ a, OfValues (g a)) :
    OfValues (x >>= g) := by
  cases x with
  | error f => exact error f (hx f rfl)
  | ok a => exact hg a

theorem map (g : α → β) (hx : OfValues x) : OfValues (x.map g) := by
  cases x with
  | error f => exact error f (hx f rfl)
  | ok a => exact ok _

theorem ite {c : Prop} [Decidable c] {y : Except Fault α} (hx : OfValues x) (hy : OfValues y) :
    OfValues (if c then x else y) := by
  split
  · exact hx
  · exact hy

end OfValues

open OfValues

namespace Value

/-- Values have texts, unless those are too long. -/
theorem eq_tooManyDigits_of_text {v : Value} {f : Fault} (h : v.text = .error f) :
    f = .tooManyDigits := by
  unfold text at h
  split at h
  case h_1 n =>
    split at h
    · cases h
    · cases h
      rfl
  all_goals cases h

theorem eq_tooManyDigits_of_printed {v : Value} {f : Fault} (h : v.printed = .error f) :
    f = .tooManyDigits := by
  unfold printed at h
  split at h
  · cases h
  · exact eq_tooManyDigits_of_text h

theorem ofValues_text (v : Value) : OfValues v.text := by
  intro f hf
  rw [eq_tooManyDigits_of_text hf]
  rfl

theorem ofValues_toDec (n : Int) : OfValues (toDec n) := by
  rw [toDec]
  split
  · exact ok _
  · exact error _ rfl

theorem ofValues_widen {onInts : Int → Int → Except Fault Value}
    {onDecs : Float → Float → Except Fault Value}
    {onComplex : Number.Complex → Number.Complex → Except Fault Value}
    (hints : ∀ a b, OfValues (onInts a b)) (hdecs : ∀ x y, OfValues (onDecs x y))
    (hcomplex : ∀ a b, OfValues (onComplex a b)) (l r : Value) :
    OfValues (widen onInts onDecs onComplex l r) := by
  unfold widen
  split
  case h_1 | h_2 | h_3 => exact hcomplex _ _
  case h_4 | h_5 =>
    split
    · exact (ofValues_toDec _).bind fun _ => hcomplex _ _
    · exact error _ rfl
  case h_6 => exact hdecs _ _
  case h_7 | h_8 =>
    split
    · exact (ofValues_toDec _).bind fun _ => hdecs _ _
    · exact error _ rfl
  case h_9 =>
    split
    · exact hints _ _
    · exact error _ rfl

theorem ofValues_add (l r : Value) : OfValues (add l r) := by
  unfold add
  split
  · exact ok _
  · exact ofValues_widen (fun _ _ => ok _) (fun _ _ => ok _) (fun _ _ => ok _) _ _

theorem ofValues_sub (l r : Value) : OfValues (sub l r) :=
  ofValues_widen (fun _ _ => ok _) (fun _ _ => ok _) (fun _ _ => ok _) _ _

theorem ofValues_repeatText (s : String) (n : Int) : OfValues (repeatText s n) :=
  ite (error _ rfl) (ok _)

theorem ofValues_mul (l r : Value) : OfValues (mul l r) := by
  unfold mul
  split
  case h_1 | h_2 =>
    split
    · exact ofValues_repeatText _ _
    · exact error _ rfl
  case h_3 => exact ofValues_widen (fun _ _ => ok _) (fun _ _ => ok _) (fun _ _ => ok _) _ _

theorem ofValues_div (l r : Value) : OfValues (div l r) := by
  refine ofValues_widen (fun a b => ite (error _ rfl) ?_) (fun _ _ => ite (error _ rfl) (ok _))
    (fun a b => ?_) _ _
  · split
    · exact ok _
    · exact error _ rfl
  · unfold orZeroDivisor
    split
    · exact ok _
    · exact error _ rfl

end Value

namespace Template

open Value

theorem ofValues_starred (v : Value) (used : Bool) (bound : Nat) :
    OfValues (starred v used bound) := by
  refine ite (error _ rfl) ?_
  cases v.int? with
  | none => exact error _ rfl
  | some n => exact ite (ok _) (error _ rfl)

theorem ofValues_digits (cs : List Char) (bound : Nat) : OfValues (digits cs bound) :=
  ite (ok _) (error _ rfl)

theorem ofValues_readWidth (v : Value) (c : Cursor) : OfValues (readWidth v c) := by
  unfold readWidth
  split
  · exact (ofValues_starred _ _ _).bind fun _ => ok _
  · exact (ofValues_digits _ _).bind fun _ => ok _

theorem ofValues_readPrecision (v : Value) (c : Cursor) : OfValues (readPrecision v c) := by
  unfold readPrecision
  split
  · exact (ofValues_starred _ _ _).bind fun _ => ok _
  · exact (ofValues_digits _ _).bind fun _ => ok _
  · exact ok _

theorem ofValues_readHole (v : Value) (c : Cursor) : OfValues (readHole v c) := by
  refine ite (error .mismatch rfl) ((ofValues_readWidth _ _).bind fun _ =>
    (ofValues_readPrecision _ _).bind fun x => ?_)
  obtain ⟨_, c⟩ := x
  dsimp only
  split
  · exact error _ rfl
  · exact ok _

theorem ofValues_truncated (v : Value) : OfValues (truncated v) := by
  unfold truncated
  split
  · exact ite (error _ rfl) (ite (error _ rfl) (ok _))
  · split
    · exact ok _
    · exact error _ rfl

theorem ofValues_whole (v : Value) : OfValues (whole v) := by
  unfold whole
  split
  · exact ok _
  · exact error _ rfl

theorem ofValues_real (v : Value) : OfValues (real v) := by
  unfold real
  split
  · exact ok _
  · exact (ofValues_whole _).bind ofValues_toDec

theorem ofValues_characterPiece (v : Value) : OfValues (characterPiece v) := by
  unfold characterPiece
  split
  · exact ite (ok _) (error _ rfl)
  · exact (ofValues_whole _).bind fun _ => ite (ok _) (error _ rfl)

theorem ofValues_described (v : Value) : OfValues (described v) := by
  unfold described
  split
  · exact ok _
  · exact ofValues_text _

theorem ofValues_convert (h : Hole) (v : Value) : OfValues (convert h v) := by
  have hdecimal : OfValues (decimalPiece h v) :=
    (ofValues_truncated v).bind fun _ => ite (error .tooManyDigits rfl) (ok _)
  have hradix : ∀ base letter, OfValues (radixPiece h base letter v) := fun _ _ =>
      (ofValues_whole v).bind fun _ => ok _
  have hreal : ∀ form upper, OfValues (realPiece h form upper v) := fun _ _ =>
      (ofValues_real v).bind fun _ => ok _
  unfold convert
  split
  case h_1 | h_2 | h_3 => exact hdecimal
  case h_4 | h_5 | h_6 => exact hradix _ _
  case h_7 | h_8 | h_9 | h_10 | h_11 | h_12 => exact hreal _ _
  case h_13 => exact ofValues_characterPiece v
  case h_14 => exact (ofValues_text v).map _
  case h_15 | h_16 => exact (ofValues_described v).map _
  case h_17 => exact error _ rfl

theorem ofValues_fillFrom (v : Value) (fuel : Nat) (c : Cursor) : OfValues (fillFrom v fuel c) := by
  induction fuel generalizing c with
  | zero => exact ite (ok _) (error _ rfl)
  | succ fuel ih =>
    unfold fillFrom
    split
    · exact ite (ok _) (error _ rfl)
    · exact (ih _).bind fun _ => ok _
    · refine (ofValues_readHole _ _).bind fun _ => ite (error .mismatch rfl) ?_
      exact (ofValues_convert _ _).bind fun _ => (ih _).bind fun _ => ok _
    · exact (ih _).bind fun _ => ok _

theorem ofValues_fill (s : String) (v : Value) : OfValues (fill s v) :=
  (ofValues_fillFrom _ _ _).map _

end Template

namespace Value

theorem ofValues_mod (l r : Value) : OfValues (mod l r) := by
  unfold mod
  split
  · exact (Template.ofValues_fill _ _).map _
  · exact error _ rfl
  · exact error _ rfl
  · exact ofValues_widen (fun _ _ => ite (error _ rfl) (ok _)) (fun _ _ => ite (error _ rfl) (ok _))
      (fun _ _ => error _ rfl) _ _

theorem ofValues_powComplex (a b : Number.Complex) : OfValues (powComplex a b) := by
  unfold powComplex
  split
  · exact error _ rfl
  · exact ite (ok _) (error _ rfl)

theorem ofValues_powDec (x y : Float) : OfValues (powDec x y) := by
  have hinfinite : ∀ c : Prop, ∀ [Decidable c] (a b : Value),
      OfValues (if c then .ok a else .ok b) :=
    fun _ _ _ _ => ite (ok _) (ok _)
  refine ite (ok _) (ite (ok _)
    (ite (ok _) (ite (ite (ok _) (hinfinite _ _ _)) (ite (hinfinite _ _ _)
    (ite (ite (error _ rfl) (ok _)) (ite (ofValues_powComplex _ _) (ite (error _ rfl) (ok _))))))))

theorem ofValues_pow (l r : Value) : OfValues (pow l r) := by
  refine ofValues_widen (fun a b => ite (ok _) ?_) ofValues_powDec ofValues_powComplex l r
  exact (ofValues_toDec _).bind fun _ => (ofValues_toDec _).bind fun _ => ofValues_powDec _ _

theorem ofValues_connective (onBools : Bool → Bool → Bool) (onInts : Int → Int → Int)
    (l r : Value) :
    OfValues (connective onBools onInts l r) := by
  unfold connective
  split
  · exact ok _
  · split
    · exact ok _
    · exact error _ rfl

theorem ofValues_order (test : Ordering → Bool) (l r : Value) : OfValues (order test l r) := by
  unfold order
  split
  · exact ok _
  · split
    · exact error _ rfl
    · exact ok _
    · exact ok _

theorem ofValues_neg (v : Value) : OfValues v.neg := by
  unfold neg
  split
  · exact ok _
  · exact ok _
  · split
    · exact ok _
    · exact error _ rfl

theorem ofValues_pos (v : Value) : OfValues v.pos := by
  unfold pos
  split
  · exact ok _
  · exact ok _
  · split
    · exact ok _
    · exact error _ rfl

end Value

open Value

theorem BinOp.ofValues_apply (o : BinOp) (l r : Value) : OfValues (o.apply l r) := by
  cases o with
  | add => exact ofValues_add l r
  | sub => exact ofValues_sub l r
  | mul => exact ofValues_mul l r
  | div => exact ofValues_div l r
  | pow => exact ofValues_pow l r
  | mod => exact ofValues_mod l r
  | equals => exact ok _
  | gt | lt | ge | le => exact ofValues_order _ l r
  | and | or => exact ofValues_connective _ _ l r

theorem UnOp.ofValues_apply (o : UnOp) (v : Value) : OfValues (o.apply v) := by
  cases o with
  | increment => exact ofValues_add (.int 1) v
  | decrement => exact ofValues_sub v (.int 1)
  | plus => exact ofValues_pos v
  | minus => exact ofValues_neg v
  | not => exact ok _

/-! ## Cells -/

theorem Slot.ofValues_ofValue (v : Value) : OfValues (ofValue v) := by
  cases v with
  | int | bool => exact ok _
  | dec => exact ite (ok _) (error _ rfl)
  | str | complex => exact error _ rfl

namespace Memory

variable (m : Memory)

theorem ofValues_read (s : Slot) : OfValues (m.read s) := by
  unfold read
  split
  · exact error _ rfl
  · split
    · exact ok _
    · exact error _ rfl

theorem ofValues_write (s : Slot) (v : Value) : OfValues (m.write s v) := by
  unfold write
  split
  · exact error _ rfl
  · exact ok _

theorem ofValues_resolve (r : Reference) : OfValues (m.resolve r) := by
  induction r with
  | direct a => exact ok _
  | through r ih => exact ih.bind fun s => (m.ofValues_read s).bind Slot.ofValues_ofValue
  | nowhere => exact error _ rfl

theorem ofValues_load (r : Reference) : OfValues (m.load r) :=
  (m.ofValues_resolve r).bind m.ofValues_read

theorem ofValues_store (r : Reference) (v : Value) : OfValues (m.store r v) :=
  (m.ofValues_resolve r).bind fun s => m.ofValues_write s v

end Memory

/-! ## Functions of values -/

namespace Routine

theorem ofValues_sqrtOf (v : Value) : OfValues (sqrtOf v) := by
  have hroot : ∀ x : Float, OfValues (if x < 0 then .error .domain else .ok (.dec x.sqrt) :
      Except Fault Value) :=
    fun _ => ite (error _ rfl) (ok _)
  unfold sqrtOf
  split
  · exact hroot _
  · split
    · exact (ofValues_toDec _).bind hroot
    · exact error _ rfl

theorem ofValues_logOf (v : Value) : OfValues (logOf v) := by
  unfold logOf
  split
  · exact ite (error _ rfl) (ok _)
  · split
    · exact error _ rfl
    · refine ite (error _ rfl) ?_
      split
      · exact ok _
      · exact ok _

theorem ofValues_roundWith (round : Float → Int) (v : Value) : OfValues (roundWith round v) := by
  unfold roundWith
  split
  · exact ite (error _ rfl) (ite (error _ rfl) (ok _))
  · split
    · exact ok _
    · exact error _ rfl

theorem ofValues_lengthOf (v : Value) : OfValues (lengthOf v) := by
  cases v with
  | str s => exact ok _
  | _ => exact error _ rfl

theorem ofValues_between (low : Int) (v : Value) (high : Int) : OfValues (between low v high) := by
  unfold between
  split
  · exact ok _
  · exact error _ rfl

/-- There is no character at an index outside a text. -/
theorem characterOf_eq_absent {text index : Value} :
    characterOf text index = .error .absent ↔
      ∃ s i, text = .str s ∧ index.int? = some i ∧ ¬(-(s.length : Int) ≤ i ∧ i < s.length) := by
  unfold characterOf
  split
  case h_1 s i hi =>
    dsimp only
    have hlength : s.toList.length = s.length := String.length_toList
    constructor
    · intro h
      refine ⟨s, i, rfl, hi, ?_⟩
      split at h
      · cases h
      case h_2 hnone =>
        split_ifs at hnone
        · have := List.getElem?_eq_none_iff.1 hnone
          omega
        · have := List.getElem?_eq_none_iff.1 hnone
          omega
        · omega
    · rintro ⟨_, j, ⟨⟩, hj, hout⟩
      obtain rfl := Option.some.inj (hi.symm.trans hj)
      split
      case h_1 c hc =>
        split_ifs at hc
        · have := (List.getElem?_eq_some_iff.1 hc).1
          omega
        · have := (List.getElem?_eq_some_iff.1 hc).1
          omega
      case h_2 => rfl
  case h_2 hnot =>
    constructor
    · intro h
      cases h
    · rintro ⟨s, i, rfl, hi, -⟩
      exact absurd hi (hnot s i rfl)

/-- Nothing else goes wrong but that values are of the wrong kind. -/
theorem ofValues_characterOf {text index : Value} (h : characterOf text index ≠ .error .absent) :
    OfValues (characterOf text index) := by
  unfold characterOf at h ⊢
  split at h
  case h_1 s i hi =>
    dsimp only at h ⊢
    split at h
    · exact ok _
    · exact absurd rfl h
  case h_2 => exact error _ rfl

end Routine

end Symphony
