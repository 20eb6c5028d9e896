import Mathlib.Tactic.Common
import Symphony.Machine.State
import Symphony.Quad

/-!
# Quads as text

The machine reads a program as text. Nothing is lost on the way: if no field holds a blank, the
lines and words of the text are the quads and fields again (`Program.code_ofText`), and a number is
read back as it was written (`Text.readInteger?_toString`), unless it has too many digits.
-/

namespace Symphony

variable {c : Char} {cs : List Char}

namespace Text

/-! ## Numbers -/

theorem digit?_of_isDigit (h : c.isDigit = true) : digit? c = some (c.toNat - '0'.toNat) := by
  have hbounds : '0'.toNat ≤ c.toNat ∧ c.toNat ≤ '9'.toNat := by
    simpa [Char.isDigit, UInt32.le_iff_toNat_le] using h
  rw [digit?, if_pos (by simpa using hbounds)]

theorem ne_underscore_of_isDigit (h : c.isDigit = true) : c ≠ '_' := by
  rintro rfl
  exact absurd h (by decide)

/-- Digits are read one after the other, as long as there are not too many of them. -/
theorem readDigits?_of_isDigit (hcs : ∀ c ∈ cs, c.isDigit = true) {acc count : Nat} {inside : Bool}
    (h : count ≤ digitLimit) (hne : cs ≠ [] ∨ inside = true) :
    readDigits? acc count inside cs =
      if count + cs.length ≤ digitLimit then some (Nat.ofDigitChars 10 cs acc) else none := by
  induction cs generalizing acc count inside with
  | nil => simp_all [readDigits?]
  | cons c cs ih =>
    have hc := hcs c (by simp)
    rw [readDigits?, if_neg (ne_underscore_of_isDigit hc), digit?_of_isDigit hc]
    dsimp only
    split
    case isTrue hlt =>
      rw [ih (fun c' hc' => hcs c' (by simp [hc'])) hlt (.inr rfl), Nat.ofDigitChars_cons,
        Nat.mul_comm acc 10, List.length_cons, Nat.succ_add_eq_add_succ]
    case isFalse hlt =>
      rw [if_neg]
      simp only [List.length_cons]
      omega

theorem lt_tooLong_iff (n : Nat) : n < tooLong ↔ (Nat.toDigits 10 n).length ≤ digitLimit := by
  have hpos : 0 < digitLimit := by decide
  unfold tooLong
  generalize digitLimit = limit at hpos ⊢
  exact (Nat.length_toDigits_le_iff (by decide) hpos).symm

theorem readDigits?_toDigits (n : Nat) :
    readDigits? 0 0 false (Nat.toDigits 10 n) = if n < tooLong then some n else none := by
  have hdigits : ∀ c ∈ Nat.toDigits 10 n, c.isDigit = true := fun c hc =>
    Nat.isDigit_of_mem_toDigits (by decide) (by decide) hc
  rw [readDigits?_of_isDigit hdigits (Nat.zero_le _) (.inl Nat.toDigits_ne_nil),
    Nat.ofDigitChars_ten_toDigits, Nat.zero_add]
  simp only [← lt_tooLong_iff]

theorem readSigned?_of_isDigit (hcs : ∀ c ∈ cs, c.isDigit = true) :
    readSigned? cs = (readDigits? 0 0 false cs).map Int.ofNat := by
  unfold readSigned?
  split
  · exact absurd (hcs '-' (by simp)) (by decide)
  · exact absurd (hcs '+' (by simp)) (by decide)
  · rfl

/-- Without padding at its ends a text is not trimmed. -/
theorem trimPadding_of_forall (h : ∀ c ∈ cs, isPadding c = false) : trimPadding cs = cs := by
  have hdrop : ∀ ds : List Char, (∀ c ∈ ds, isPadding c = false) → ds.dropWhile isPadding = ds := by
    intro ds hds
    cases ds with
    | nil => rfl
    | cons d ds => simp [hds d (by simp)]
  rw [trimPadding, hdrop cs h, hdrop _ (by simpa using h), List.reverse_reverse]

theorem isBlank_of_isDigit (h : c.isDigit = true) : isBlank c = false := by
  have hbounds : 48 ≤ c.toNat ∧ c.toNat ≤ 57 := by
    simpa [Char.isDigit, UInt32.le_iff_toNat_le] using h
  simp only [isBlank, Bool.or_eq_false_iff, Bool.and_eq_false_iff, decide_eq_false_iff_not,
    beq_eq_false_iff_ne]
  omega

/-- A number has digits, and a sign if it is negative. -/
theorem toList_toString (n : Int) :
    (toString n).toList =
      if n < 0 then '-' :: Nat.toDigits 10 n.natAbs else Nat.toDigits 10 n.natAbs := by
  cases n with
  | ofNat n =>
    rw [if_neg (by simp)]
    exact Nat.toList_repr
  | negSucc n =>
    rw [if_pos (Int.negSucc_lt_zero n)]
    simp [toString, Int.repr]

theorem isBlank_of_mem_toString {n : Int} (h : c ∈ (toString n).toList) : isBlank c = false := by
  have hdigits : ∀ c ∈ Nat.toDigits 10 n.natAbs, isBlank c = false := fun c hc =>
    isBlank_of_isDigit (Nat.isDigit_of_mem_toDigits (by decide) (by decide) hc)
  rw [toList_toString] at h
  split at h
  · rcases List.mem_cons.1 h with rfl | h
    · decide
    · exact hdigits c h
  · exact hdigits c h

/-- A number that is not too long is read back as it was written. -/
theorem readInteger?_toString (n : Int) :
    readInteger? (toString n) = if n.natAbs < tooLong then some n else none := by
  have htrim : trimPadding (toString n).toList = (toString n).toList :=
    trimPadding_of_forall fun c hc => by simp [isPadding, isBlank_of_mem_toString hc]
  rw [readInteger?, htrim, toList_toString]
  split
  case isTrue hneg =>
    rw [readSigned?, readDigits?_toDigits]
    split
    · show some (-(n.natAbs : Int)) = some n
      rw [Int.ofNat_natAbs_of_nonpos (Int.le_of_lt hneg), Int.neg_neg]
    · rfl
  case isFalse hneg =>
    rw [readSigned?_of_isDigit (fun c hc => Nat.isDigit_of_mem_toDigits (by decide) (by decide) hc),
      readDigits?_toDigits]
    split
    · rw [Option.map_some, Int.ofNat_eq_natCast, Int.natAbs_of_nonneg (Int.not_lt.1 hneg)]
    · rfl

end Text

/-! ## Fields and lines -/

/-- A field that is one word of its line. -/
def Field.IsSolid (f : Field) : Prop :=
  f.text.toList ≠ [] ∧ ∀ c ∈ f.text.toList, Text.isBlank c = false

namespace Field

theorem isSolid_num (n : Int) : (num n).IsSolid := by
  refine ⟨?_, fun c hc => Text.isBlank_of_mem_toString hc⟩
  show (toString n).toList ≠ []
  rw [Text.toList_toString]
  split
  · simp
  · exact Nat.toDigits_ne_nil

theorem isSolid_pointer (a : Int) : (pointer a).IsSolid := by
  have htext : (pointer a).text.toList = '&' :: (toString a).toList := by
    simp [Field.text]
  rw [IsSolid, htext]
  refine ⟨by simp, fun c hc => ?_⟩
  rcases List.mem_cons.1 hc with rfl | hc
  · decide
  · exact Text.isBlank_of_mem_toString hc

end Field

namespace Text

theorem mem_intercalate {ws : List (List Char)} {sep : Char} (h : c ∈ [sep].intercalate ws) :
    c = sep ∨ ∃ w ∈ ws, c ∈ w := by
  induction ws with
  | nil => simp at h
  | cons w ws ih =>
    cases ws with
    | nil => exact .inr ⟨w, by simp, by simpa using h⟩
    | cons w' ws =>
      rw [List.intercalate_cons_cons, List.mem_append, List.mem_append, List.mem_singleton] at h
      rcases h with (h | h) | h
      · exact .inr ⟨w, by simp, h⟩
      · exact .inl h
      · rcases ih h with h | ⟨u, hu, h⟩
        · exact .inl h
        · exact .inr ⟨u, by simp [hu], h⟩

/-- Words with single blanks between them are the words of the line. -/
theorem splitOnP_intercalate {ws : List (List Char)} (hws : ∀ w ∈ ws, ∀ c ∈ w, isBlank c = false)
    (hne : ws ≠ []) : ([' '].intercalate ws).splitOnP isBlank = ws := by
  induction ws with
  | nil => exact absurd rfl hne
  | cons w ws ih =>
    have hw := hws w (by simp)
    cases ws with
    | nil => simpa using List.splitOnP_eq_singleton hw
    | cons w' ws =>
      rw [List.intercalate_cons_cons, List.append_assoc, List.singleton_append,
        List.splitOnP_append_cons_of_forall_mem hw ' ' (by decide),
        ih (fun w hw => hws w (by simp [hw])) (by simp)]

end Text

namespace Quad

theorem words_text {q : Quad} (h : ∀ f ∈ q, f.IsSolid) : Text.words q.text = q.map Field.text := by
  cases q with
  | nil => rfl
  | cons f fs =>
    have hblank : ∀ w ∈ ((f :: fs).map Field.text).map String.toList, ∀ c ∈ w,
        Text.isBlank c = false := by
      simp only [List.map_map, List.mem_map, Function.comp_apply, forall_exists_index, and_imp]
      rintro _ g hg rfl
      exact (h g hg).2
    have hfilter : ∀ w ∈ ((f :: fs).map Field.text).map String.toList, (!w.isEmpty) = true := by
      simp only [List.map_map, List.mem_map, Function.comp_apply, forall_exists_index, and_imp]
      rintro _ g hg rfl
      simpa using (h g hg).1
    rw [Text.words, Quad.text, String.toList_intercalate]
    have hsep : " ".toList = [' '] := rfl
    rw [hsep, Text.splitOnP_intercalate hblank (by simp), List.filter_eq_self.2 hfilter]
    simp

theorem newline_not_mem_text {q : Quad} (h : ∀ f ∈ q, f.IsSolid) : '\n' ∉ q.text.toList := by
  intro hmem
  rw [Quad.text, String.toList_intercalate] at hmem
  rcases Text.mem_intercalate hmem with hc | ⟨w, hw, hc⟩
  · exact absurd hc (by decide)
  · simp only [List.map_map, List.mem_map, Function.comp_apply] at hw
    obtain ⟨f, hf, rfl⟩ := hw
    exact absurd ((h f hf).2 _ hc) (by decide)

end Quad

/-- A program whose fields are words is read as it was written. -/
theorem Program.code_ofText {qs : Array Quad} (fs : List Function) (hne : qs ≠ #[])
    (h : ∀ q ∈ qs, ∀ f ∈ q, f.IsSolid) :
    (Program.ofText (Quad.program qs) fs).code = qs.map (·.map Field.text) := by
  have hlines : Text.lines (Quad.program qs) = qs.toList.map Quad.text := by
    have hsplit := @List.splitOn_intercalate _ ((qs.toList.map Quad.text).map String.toList) _ _
        '\n'
    have hnl : "\n".toList = ['\n'] := rfl
    rw [Text.lines, Quad.program, String.toList_intercalate, hnl, hsplit]
    · simp
    · simp only [List.map_map, List.mem_map, Function.comp_apply, Array.mem_toList_iff,
        forall_exists_index, and_imp]
      rintro _ q hq rfl
      exact Quad.newline_not_mem_text (h q hq)
    · simpa using hne
  have hwords : (qs.toList.map Quad.text).map Text.words = qs.toList.map (·.map Field.text) := by
    rw [List.map_map]
    exact List.map_congr_left fun q hq => Quad.words_text (h q (by simpa using hq))
  rw [Program.ofText, hlines, hwords, ← Array.toList_map]

end Symphony
