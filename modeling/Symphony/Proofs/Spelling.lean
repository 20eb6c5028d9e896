import Mathlib.Tactic.Common
import Symphony.Proofs.Code
import Symphony.Token.Scan

/-!
# The spelling of tokens

`Token.Spells` says which texts a token may be written as: words, numbers with an optional sign,
characters and texts between quotes, and the symbols. It is said without the scanner.

**Theorem (`Lexemes.scan_joined`).** Scanning undoes writing: if tokens are written with single
blanks between them, scanning gives these tokens back and finds nothing illegal, whatever is between
the quotes.

Many rules compete for the start of a text, and the first one that fits is taken. So for every sort
of token all rules before its own have to be ruled out, given only that a blank or the end of the
source comes next (`Breaks`).
-/

namespace Symphony

variable {after cs text : List Char} {c : Char} {name : String} {t : Token}

namespace Scan

/-- A letter or an underscore, then letters, digits and underscores. -/
def IsName : List Char → Prop
  | [] => False
  | c :: cs => isLetter c = true ∧ ∀ d ∈ cs, isWordChar d = true

instance : DecidablePred IsName
  | [] => inferInstanceAs (Decidable False)
  | c :: cs =>
    decidable_of_iff (isLetter c = true ∧ cs.all isWordChar = true)
      (and_congr_right' List.all_eq_true)

/-- The text of an optional sign, and whether it is negative. -/
inductive IsSign : Bool → List Char → Prop
  | none : IsSign false []
  | plus : IsSign false ['+']
  | minus : IsSign true ['-']

/-- A row of digits, which may be empty. -/
def AreDigits (ds : List Char) : Prop :=
  ∀ c ∈ ds, c.isDigit = true

end Scan

open Scan

/-- The texts that a token may be written as. -/
inductive Token.Spells : Token → List Char → Prop
  | keyword (k : Keyword) : Spells (.keyword k) k.spelling.toList
  | symbol (s : Symbol) : Spells (.symbol s) s.spelling.toList
  | boolVal (b : Bool) : Spells (.boolVal b) (if b then "true" else "false").toList
  | special {name : String} : name ∈ specialNames → Spells (.special name) name.toList
  | ident {name : String} :
      IsName name.toList → name ∉ specialNames → name ≠ "true" → name ≠ "false" →
      (∀ k : Keyword, name ≠ k.spelling) → Spells (.ident name) name.toList
  | intVal {negative : Bool} {sign ds : List Char} :
      IsSign negative sign → AreDigits ds → ds ≠ [] → ds.length ≤ Text.digitLimit →
      Spells (.intVal (if negative then -(Nat.ofDigitChars 10 ds 0 : Int)
        else Nat.ofDigitChars 10 ds 0))
        (sign ++ ds)
  | decVal {negative : Bool} {sign whole places : List Char} :
      IsSign negative sign → AreDigits whole → AreDigits places → places ≠ [] →
      Spells (.decVal (Number.ofDecimal negative (Nat.ofDigitChars 10 (whole ++ places) 0)
        (-places.length)))
        (sign ++ whole ++ '.' :: places)
  | charVal {c : Char} : c ≠ '\'' → Spells (.charVal c) ['\'', c, '\'']
  | strVal {s : String} : '"' ∉ s.toList → Spells (.strVal s) ('"' :: s.toList ++ ['"'])

/-- An integer that is not too long is spelt by its decimal text. -/
theorem Token.spells_toString {n : Int} (h : n.natAbs < Text.tooLong) :
    Token.Spells (.intVal n) (toString n).toList := by
  have hdigits : AreDigits (Nat.toDigits 10 n.natAbs) := fun c hc =>
    Nat.isDigit_of_mem_toDigits (by decide) (by decide) hc
  have hlength := (Text.lt_tooLong_iff n.natAbs).1 h
  rw [Text.toList_toString]
  split
  case isTrue hneg =>
    have hspells := Spells.intVal IsSign.minus hdigits Nat.toDigits_ne_nil hlength
    rw [Nat.ofDigitChars_ten_toDigits, if_pos rfl, Int.ofNat_natAbs_of_nonpos (Int.le_of_lt hneg),
      Int.neg_neg] at hspells
    exact hspells
  case isFalse hneg =>
    have hspells := Spells.intVal IsSign.none hdigits Nat.toDigits_ne_nil hlength
    rw [Nat.ofDigitChars_ten_toDigits, if_neg (by decide), Int.natAbs_of_nonneg (Int.not_lt.1 hneg)]
      at hspells
    exact hspells

/-! ## Rules that do not apply -/

namespace Scan

section

theorem isLetter_cases (h : isLetter c = true) :
    c = '_' ∨ (65 ≤ c.toNat ∧ c.toNat ≤ 90) ∨ (97 ≤ c.toNat ∧ c.toNat ≤ 122) := by
  delta isLetter Char.isAlpha Char.isUpper Char.isLower at h
  simp only [UInt32.le_iff_toNat_le, Bool.or_eq_true, beq_iff_eq, Bool.and_eq_true,
    decide_eq_true_eq] at h
  rcases h with (h | h) | h
  · exact .inr (.inl h)
  · exact .inr (.inr h)
  · exact .inl h

theorem isDigit_bounds (h : c.isDigit = true) : 48 ≤ c.toNat ∧ c.toNat ≤ 57 := by
  simpa [Char.isDigit, UInt32.le_iff_toNat_le] using h

theorem not_isBlank_of_isLetter (h : isLetter c = true) : isBlank c = false ∧ c ≠ '/' := by
  have hblank : c ≠ ' ' ∧ c ≠ '\t' ∧ c ≠ '/' := by
    refine ⟨?_, ?_, ?_⟩ <;> rintro rfl <;> exact absurd h (by decide)
  exact ⟨by simp [isBlank, hblank], hblank.2.2⟩

theorem not_isBlank_of_isDigit (h : c.isDigit = true) : isBlank c = false ∧ c ≠ '/' := by
  have hblank : c ≠ ' ' ∧ c ≠ '\t' ∧ c ≠ '/' := by
    refine ⟨?_, ?_, ?_⟩ <;> rintro rfl <;> exact absurd h (by decide)
  exact ⟨by simp [isBlank, hblank], hblank.2.2⟩

theorem isLetter_of_isDigit (h : c.isDigit = true) : isLetter c = false := by
  by_contra hletter
  have hbounds := isDigit_bounds h
  rcases isLetter_cases (Bool.not_eq_false _ ▸ hletter) with rfl | hcases
  · exact absurd h (by decide)
  · omega

theorem blanks?_cons (h : isBlank c = false) : blanks? (c :: cs) = none := by
  simp [blanks?, h]

theorem blockComment?_cons (h : c ≠ '/') : blockComment? (c :: cs) = none := by
  unfold blockComment?
  split
  case h_1 heq => exact absurd (List.cons.inj heq).1 h
  case h_2 => rfl

theorem word?_cons (h : isLetter c = false) : word? (c :: cs) = none := by
  simp [word?, h]

theorem sign_cons (hp : c ≠ '+') (hm : c ≠ '-') : sign (c :: cs) = (false, [], c :: cs) := by
  unfold sign
  split
  case h_1 heq => exact absurd (List.cons.inj heq).1 hp
  case h_2 heq => exact absurd (List.cons.inj heq).1 hm
  case h_3 => rfl

/-- A number starts with a sign, a digit or a point. -/
theorem decimal?_cons (hp : c ≠ '+') (hm : c ≠ '-') (hd : c.isDigit = false) (hpoint : c ≠ '.') :
    decimal? (c :: cs) = none := by
  unfold decimal?
  rw [sign_cons hp hm]
  dsimp only
  rw [List.dropWhile_cons_of_neg (by simp [hd])]
  split
  case h_1 heq => exact absurd (List.cons.inj heq).1 hpoint
  case h_2 => rfl

theorem integer?_cons (hp : c ≠ '+') (hm : c ≠ '-') (hd : c.isDigit = false) :
    integer? (c :: cs) = none := by
  simp [integer?, sign_cons hp hm, hd]

theorem character?_cons (h : c ≠ '\'') : character? (c :: cs) = none := by
  unfold character?
  split
  case h_1 heq => exact absurd (List.cons.inj heq).1 h
  case h_2 => rfl

theorem string?_cons (h : c ≠ '"') : string? (c :: cs) = none := by
  unfold string?
  split
  case h_1 heq => exact absurd (List.cons.inj heq).1 h
  case h_2 => rfl

theorem newlines?_cons (h : c ≠ '\n') : newlines? (c :: cs) = none := by
  simp [newlines?, h]

theorem lineComment?_cons (h : c ≠ '/') : lineComment? (c :: cs) = none := by
  unfold lineComment?
  split
  case h_1 heq => exact absurd (List.cons.inj heq).1 h
  case h_2 => rfl

end

/-! ## Rules that apply -/

/-- What comes next does not go on with a token. -/
def Breaks (after : List Char) : Prop :=
  after = [] ∨ ∃ rest, after = ' ' :: rest

theorem Breaks.takeWhile (h : Breaks after) {p : Char → Bool} (hp : p ' ' = false)
    (ht : ∀ c ∈ text, p c = true) : (text ++ after).takeWhile p = text := by
  rw [List.takeWhile_append_of_pos ht]
  rcases h with rfl | ⟨rest, rfl⟩
  · simp
  · simp [hp]

theorem Breaks.dropWhile (h : Breaks after) {p : Char → Bool} (hp : p ' ' = false)
    (ht : ∀ c ∈ text, p c = true) : (text ++ after).dropWhile p = after := by
  rw [List.dropWhile_append_of_pos ht]
  rcases h with rfl | ⟨rest, rfl⟩
  · rfl
  · simp [hp]

section

variable {negative : Bool} {s ds whole places : List Char}

/-- A sign is taken if no second one follows it. -/
theorem sign_append (hs : IsSign negative s) {rest : List Char} (hp : rest.head? ≠ some '+')
    (hm : rest.head? ≠ some '-') : sign (s ++ rest) = (negative, s, rest) := by
  cases hs with
  | plus => rfl
  | minus => rfl
  | none =>
    cases rest with
    | nil => rfl
    | cons c cs => exact sign_cons (by simpa using hp) (by simpa using hm)

/-- Neither digits nor what follows them is a sign. -/
theorem head?_digits_ne (hc : c.isDigit = false) (hds : AreDigits ds) {rest : List Char}
    (hrest : rest.head? ≠ some c) : (ds ++ rest).head? ≠ some c := by
  cases ds with
  | nil => exact hrest
  | cons d ds =>
    intro h
    cases h
    exact absurd (hds _ List.mem_cons_self) (by simp [hc])

theorem Breaks.head?_ne (h : Breaks after) (hc : c ≠ ' ') : after.head? ≠ some c := by
  rcases h with rfl | ⟨rest, rfl⟩
  · simp
  · simpa using hc.symm

theorem sign_digits (hs : IsSign negative s) (hds : AreDigits ds) (hafter : Breaks after) :
    sign (s ++ (ds ++ after)) = (negative, s, ds ++ after) :=
  sign_append hs (head?_digits_ne (by decide) hds (hafter.head?_ne (by decide)))
    (head?_digits_ne (by decide) hds (hafter.head?_ne (by decide)))

/-- Digits without a point are no decimal. -/
theorem decimal?_digits (hs : IsSign negative s) (hds : AreDigits ds) (hafter : Breaks after) :
    decimal? (s ++ (ds ++ after)) = none := by
  unfold decimal?
  rw [sign_digits hs hds hafter]
  dsimp only
  rw [hafter.dropWhile (by decide) hds]
  rcases hafter with rfl | ⟨rest, rfl⟩ <;> rfl

theorem integer?_digits (hs : IsSign negative s) (hds : AreDigits ds) (hne : ds ≠ [])
    (hlen : ds.length ≤ Text.digitLimit) (hafter : Breaks after) :
    integer? (s ++ (ds ++ after)) = some (.token
      (.intVal (if negative then -(Nat.ofDigitChars 10 ds 0 : Int) else Nat.ofDigitChars 10 ds 0))
        (s ++ ds)) := by
  unfold integer?
  rw [sign_digits hs hds hafter]
  dsimp only
  rw [hafter.takeWhile (by decide) hds, if_neg (by simpa using hne), if_neg (Nat.not_lt.2 hlen)]
  rfl

/-- What is read after a point. -/
theorem decimal?_point (hs : IsSign negative s) (hwhole : AreDigits whole) (cs : List Char) :
    decimal? (s ++ (whole ++ '.' :: cs)) =
      if (cs.takeWhile Char.isDigit).isEmpty then none
      else some (.token (.decVal (Number.ofDecimal negative
        (Nat.ofDigitChars 10 (whole ++ cs.takeWhile Char.isDigit) 0)
          (-(cs.takeWhile Char.isDigit).length)))
        (s ++ whole ++ '.' :: cs.takeWhile Char.isDigit)) := by
  have hsign : sign (s ++ (whole ++ '.' :: cs)) = (negative, s, whole ++ '.' :: cs) :=
    sign_append hs (head?_digits_ne (by decide) hwhole (by simp))
      (head?_digits_ne (by decide) hwhole (by simp))
  unfold decimal?
  rw [hsign]
  dsimp only
  rw [List.takeWhile_append_of_pos hwhole, List.dropWhile_append_of_pos hwhole,
    List.takeWhile_cons_of_neg (by decide), List.dropWhile_cons_of_neg (by decide), List.append_nil]
  rfl

theorem decimal?_places (hs : IsSign negative s) (hwhole : AreDigits whole)
    (hplaces : AreDigits places) (hne : places ≠ []) (hafter : Breaks after) :
    decimal? (s ++ (whole ++ '.' :: (places ++ after))) = some (.token
      (.decVal (Number.ofDecimal negative (Nat.ofDigitChars 10 (whole ++ places) 0)
        (-places.length)))
      (s ++ whole ++ '.' :: places)) := by
  rw [decimal?_point hs hwhole, hafter.takeWhile (by decide) hplaces, if_neg (by simpa using hne)]

theorem word?_name {w : List Char} (hw : IsName w) (hafter : Breaks after) :
    word? (w ++ after) = some (.token (Token.ofWord (String.ofList w)) w) := by
  cases w with
  | nil => exact absurd hw id
  | cons c cs =>
    rw [List.cons_append, word?, if_pos hw.1]
    dsimp only
    rw [hafter.takeWhile (by decide) hw.2]

theorem symbol?_spelling (x : Symbol) (hafter : Breaks after) :
    symbol? (x.spelling.toList ++ after) = some (.token (.symbol x) x.spelling.toList) := by
  rcases hafter with rfl | ⟨rest, rfl⟩ <;> cases x <;> rfl

end

end Scan

/-- The first rule that applies is taken. -/
theorem Piece.first?_eq (cs : List Char) :
    Piece.first? cs = (blanks? cs).or
      ((blockComment? cs).or ((word? cs).or ((decimal? cs).or ((integer? cs).or
      ((character? cs).or ((string? cs).or
        ((newlines? cs).or ((lineComment? cs).or (symbol? cs))))))))) := by
  have hcons : ∀ (rule : List Char → Option Piece) (rules : List (List Char → Option Piece)),
      (rule :: rules).findSome? (· cs) = (rule cs).or (rules.findSome? (· cs)) := by
    intro rule rules
    rw [List.findSome?_cons]
    cases rule cs <;> rfl
  simp only [Piece.first?, rules, hcons, List.findSome?_nil, Option.or_none]

/-! ## Each sort of token -/

section

theorem Scan.IsName.first? {w : List Char} (hw : IsName w) (hafter : Breaks after) :
    Piece.first? (w ++ after) = some (.token (Token.ofWord (String.ofList w)) w) := by
  have hword := word?_name hw hafter
  cases w with
  | nil => exact absurd hw id
  | cons c cs =>
    have hother := not_isBlank_of_isLetter hw.1
    rw [Piece.first?_eq, hword, List.cons_append, blanks?_cons hother.1,
      blockComment?_cons hother.2]
    rfl

theorem Scan.isName_keyword (k : Keyword) : IsName k.spelling.toList := by
  cases k with
  | type t => cases t <;> decide
  | _ => decide

theorem Scan.isName_bool (b : Bool) : IsName (if b then "true" else "false").toList := by
  cases b <;> decide

theorem Scan.isName_special : ∀ name ∈ specialNames, IsName name.toList := by
  decide

theorem Token.ofWord_keyword (k : Keyword) : Token.ofWord k.spelling = .keyword k := by
  cases k with
  | type t => cases t <;> decide
  | _ => decide

theorem Token.ofWord_special (h : name ∈ specialNames) : Token.ofWord name = .special name := by
  rw [ofWord, if_pos (List.contains_iff_mem.2 h)]

theorem Keyword.ofSpelling?_eq_none (h : ∀ k : Keyword, name ≠ k.spelling) :
    ofSpelling? name = none := by
  refine List.find?_eq_none.2 fun k _ hk => h k ?_
  simpa using (beq_iff_eq.1 hk).symm

theorem Token.ofWord_ident (hs : name ∉ specialNames) (ht : name ≠ "true") (hf : name ≠ "false")
    (hk : ∀ k : Keyword, name ≠ k.spelling) : Token.ofWord name = .ident name := by
  rw [ofWord, if_neg (by simpa using hs), if_neg (by simpa using ht), if_neg (by simpa using hf),
    Keyword.ofSpelling?_eq_none hk]

/-- What starts as a number is neither skipped nor a word. -/
theorem Piece.first?_number (h : c = '+' ∨ c = '-' ∨ c = '.' ∨ c.isDigit = true) :
    Piece.first? (c :: cs) = (decimal? (c :: cs)).or ((integer? (c :: cs)).or
      ((character? (c :: cs)).or ((string? (c :: cs)).or ((newlines? (c :: cs)).or
        ((lineComment? (c :: cs)).or (symbol? (c :: cs))))))) := by
  have hother : (isBlank c = false ∧ c ≠ '/') ∧ isLetter c = false := by
    rcases h with rfl | rfl | rfl | h
    · decide
    · decide
    · decide
    · exact ⟨not_isBlank_of_isDigit h, isLetter_of_isDigit h⟩
  rw [Piece.first?_eq, blanks?_cons hother.1.1, blockComment?_cons hother.1.2, word?_cons hother.2]
  rfl

theorem Piece.first?_symbol (x : Symbol) (hafter : Breaks after) :
    Piece.first? (x.spelling.toList ++ after) = some (.token (.symbol x) x.spelling.toList) := by
  rw [Piece.first?_eq, symbol?_spelling x hafter]
  rcases hafter with rfl | ⟨rest, rfl⟩ <;> cases x <;> rfl

/-- What starts as a number is neither skipped nor a word. -/
theorem Scan.IsSign.first?_append {negative : Bool} {s : List Char} (hs : IsSign negative s)
    (hc : c = '.' ∨ c.isDigit = true) :
    Piece.first? (s ++ c :: cs) = (decimal? (s ++ c :: cs)).or ((integer? (s ++ c :: cs)).or
      ((character? (s ++ c :: cs)).or ((string? (s ++ c :: cs)).or ((newlines? (s ++ c :: cs)).or
        ((lineComment? (s ++ c :: cs)).or (symbol? (s ++ c :: cs))))))) := by
  cases hs with
  | none => exact Piece.first?_number (.inr (.inr hc))
  | plus => exact Piece.first?_number (.inl rfl)
  | minus => exact Piece.first?_number (.inr (.inl rfl))

/-- A token that is followed by a blank or by nothing is what a source starts with. -/
theorem Token.Spells.first? (h : t.Spells text) (hafter : Breaks after) :
    Piece.first? (text ++ after) = some (.token t text) := by
  cases h with
  | keyword k => rw [(isName_keyword k).first? hafter, String.ofList_toList, Token.ofWord_keyword]
  | symbol x => exact Piece.first?_symbol x hafter
  | boolVal b =>
    rw [(isName_bool b).first? hafter, String.ofList_toList]
    cases b <;> rfl
  | @special name hs =>
    rw [(isName_special name hs).first? hafter, String.ofList_toList, Token.ofWord_special hs]
  | ident hname hs ht hf hk =>
    rw [hname.first? hafter, String.ofList_toList, Token.ofWord_ident hs ht hf hk]
  | @intVal negative s ds hs hds hne hlen =>
    have hint := integer?_digits hs hds hne hlen hafter
    have hdec := decimal?_digits hs hds hafter
    rw [List.append_assoc]
    cases ds with
    | nil => exact absurd rfl hne
    | cons d ds =>
      rw [List.cons_append, hs.first?_append (.inr (hds d List.mem_cons_self)), ← List.cons_append,
        hdec, hint]
      rfl
  | @decVal negative s whole places hs hwhole hplaces hne =>
    have hdec := decimal?_places hs hwhole hplaces hne hafter
    rw [List.append_assoc, List.append_assoc, List.cons_append]
    cases whole with
    | nil =>
      rw [List.nil_append] at hdec ⊢
      rw [hs.first?_append (.inl rfl), hdec]
      rfl
    | cons d whole =>
      rw [List.cons_append, hs.first?_append (.inr (hwhole d List.mem_cons_self)),
        ← List.cons_append, hdec]
      rfl
  | @charVal c hc =>
    have hchar : character? ('\'' :: c :: '\'' :: after) =
        some (.token (.charVal c) ['\'', c, '\'']) := by
      simp [character?, hc]
    -- What is tried before characters does not begin with a quote.
    show Piece.first? ('\'' :: c :: '\'' :: after) = _
    rw [Piece.first?_eq, blanks?_cons (by decide), blockComment?_cons (by decide),
      word?_cons (by decide), decimal?_cons (by decide) (by decide) (by decide) (by decide),
      integer?_cons (by decide) (by decide) (by decide), hchar]
    rfl
  | @strVal s hs =>
    have hinside : ∀ c ∈ s.toList, (c != '"') = true := fun c hc => bne_iff_ne.2 fun h =>
        hs (h ▸ hc)
    -- The text has no double quote in it, so the next one closes it.
    have hstring : string? ('"' :: (s.toList ++ '"' :: after)) =
        some (.token (.strVal s) ('"' :: s.toList ++ ['"'])) := by
      simp only [string?]
      rw [List.takeWhile_append_of_pos hinside, List.dropWhile_append_of_pos hinside]
      simp
    have htext : '"' :: s.toList ++ ['"'] ++ after = '"' :: (s.toList ++ '"' :: after) := by simp
    rw [htext, Piece.first?_eq, blanks?_cons (by decide), blockComment?_cons (by decide),
      word?_cons (by decide), decimal?_cons (by decide) (by decide) (by decide) (by decide),
      integer?_cons (by decide) (by decide) (by decide), character?_cons (by decide), hstring]
    rfl

end

/-! ## Tokens with blanks between them -/

/-- The token of a piece that is one. -/
def Piece.token? : Piece → Option Token
  | .token t _ => some t
  | _ => none

theorem Piece.map_token_place (line pos : Nat) (ps : List Piece) :
    (Piece.place line pos ps).1.map Lexeme.token = ps.filterMap Piece.token? := by
  induction ps generalizing line pos with
  | nil => rfl
  | cons p ps ih =>
    cases p with
    | token t text => exact congrArg (t :: ·) (ih _ _)
    | _ => exact ih _ _

/-- One piece is cut off, and the rest is cut in the same way. -/
theorem Pieces.scanUpTo_append {p : Piece} {fuel : Nat}
    (hfirst : Piece.first? (p.text ++ cs) = some p) (hne : p.text ≠ [])
    (hfits : ∀ text, p ≠ .overlong text) (hfuel : (p.text ++ cs).length ≤ fuel) :
    ∃ fuel', cs.length ≤ fuel' ∧
      scanUpTo fuel (p.text ++ cs) = ⟨p :: (scanUpTo fuel' cs).list, (scanUpTo fuel' cs).stop⟩ := by
  obtain ⟨c, text, htext⟩ := List.exists_cons_of_ne_nil hne
  cases fuel with
  | zero =>
    rw [htext] at hfuel
    simp at hfuel
  | succ fuel =>
    refine ⟨fuel, ?_, ?_⟩
    · rw [htext, List.cons_append, List.length_cons, List.length_append] at hfuel
      omega
    · have hdrop : (p.text ++ cs).drop p.text.length = cs := List.drop_left
      rw [htext, List.cons_append] at hfirst hdrop ⊢
      rw [scanUpTo, hfirst]
      split
      case h_1 h => cases h
      case h_2 t h => exact absurd (Option.some.inj h) (hfits t)
      case h_3 q _ h =>
        obtain rfl := Option.some.inj h
        rw [htext, hdrop]

theorem Token.Spells.ne_nil (h : t.Spells text) : text ≠ [] := by
  rintro rfl
  have hfirst := h.first? (.inl rfl)
  cases hfirst

/-- No token starts with a blank. -/
theorem Token.Spells.blanks? (h : t.Spells text) (hafter : Breaks after) :
    blanks? (' ' :: (text ++ after)) = some (.blanks [' ']) := by
  have hfirst := h.first? hafter
  rw [Piece.first?_eq] at hfirst
  have htake : (text ++ after).takeWhile isBlank = [] := by
    by_contra hne
    rw [Scan.blanks?, if_neg (by simpa using hne)] at hfirst
    cases hfirst
  simp [Scan.blanks?, htake, isBlank]

/-- The texts of tokens are cut apart again. -/
theorem Pieces.scanUpTo_intercalate {ws : List (Token × List Char)} (h : ∀ w ∈ ws, w.1.Spells w.2)
    {fuel : Nat} (hfuel : ([' '].intercalate (ws.map Prod.snd)).length ≤ fuel) :
    (scanUpTo fuel ([' '].intercalate (ws.map Prod.snd))).list.filterMap Piece.token? =
      ws.map Prod.fst ∧ (scanUpTo fuel ([' '].intercalate (ws.map Prod.snd))).stop = .finished := by
  induction ws generalizing fuel with
  | nil => cases fuel <;> exact ⟨rfl, rfl⟩
  | cons w ws ih =>
    obtain ⟨hw, hws⟩ := List.forall_mem_cons.1 h
    cases ws with
    | nil =>
      have hfirst := hw.first? (.inl rfl)
      have htext : [' '].intercalate ([w].map Prod.snd) = (Piece.token w.1 w.2).text ++ [] := by
        simp [Piece.text]
      rw [htext] at hfuel ⊢
      obtain ⟨fuel', -, hscan⟩ := scanUpTo_append (p := .token w.1 w.2) hfirst hw.ne_nil
        (by simp) hfuel
      rw [hscan]
      cases fuel' <;> exact ⟨rfl, rfl⟩
    | cons v ws =>
      have hv := (List.forall_mem_cons.1 hws).1
      obtain ⟨after, hafter, hrest⟩ : ∃ after, Breaks after ∧
          [' '].intercalate ((v :: ws).map Prod.snd) = v.2 ++ after := by
        cases ws with
        | nil => exact ⟨[], .inl rfl, by simp⟩
        | cons u ws => exact ⟨_, .inr ⟨_, rfl⟩, by simp [List.intercalate_cons_cons]; rfl⟩
      have htext : [' '].intercalate ((w :: v :: ws).map Prod.snd) =
          (Piece.token w.1 w.2).text ++
            ((Piece.blanks [' ']).text ++ [' '].intercalate ((v :: ws).map Prod.snd)) := by
        simp [List.intercalate_cons_cons, Piece.text]
      have hblank : Piece.first? ((Piece.blanks [' ']).text ++ [' '].intercalate
          ((v :: ws).map Prod.snd)) = some (.blanks [' ']) := by
        rw [hrest]
        show Piece.first? (' ' :: (v.2 ++ after)) = _
        rw [Piece.first?_eq, hv.blanks? hafter]
        rfl
      rw [htext] at hfuel ⊢
      have hfirst : Piece.first? ((Piece.token w.1 w.2).text ++
          ((Piece.blanks [' ']).text ++ [' '].intercalate ((v :: ws).map Prod.snd))) =
            some (.token w.1 w.2) :=
        hw.first? (.inr ⟨_, rfl⟩)
      obtain ⟨fuel₁, hfuel₁, hscan₁⟩ := scanUpTo_append hfirst hw.ne_nil (by simp) hfuel
      obtain ⟨fuel₂, hfuel₂, hscan₂⟩ := scanUpTo_append hblank (by simp [Piece.text])
        (by simp) hfuel₁
      obtain ⟨hlist, hstop⟩ := ih hws hfuel₂
      rw [hscan₁, hscan₂]
      exact ⟨congrArg (w.1 :: ·) hlist, hstop⟩

/-- Scanning undoes writing: texts of tokens with single blanks between them are scanned as these
tokens. -/
theorem Lexemes.scan_joined :
    (∀ n : Int, n.natAbs < Text.tooLong → (Token.intVal n).Spells (toString n).toList) ∧
    ∀ (line : Nat) (ws : List (Token × String)), (∀ w ∈ ws, w.1.Spells w.2.toList) →
      (Lexemes.scan line (" ".intercalate (ws.map Prod.snd))).list.map Lexeme.token =
        ws.map Prod.fst ∧
        (Lexemes.scan line (" ".intercalate (ws.map Prod.snd))).stop = .finished := by
  refine ⟨fun n => Token.spells_toString, fun line ws hws => ?_⟩
  have hchars : (" ".intercalate (ws.map Prod.snd)).toList =
      [' '].intercalate ((ws.map fun w => (w.1, w.2.toList)).map Prod.snd) := by
    rw [String.toList_intercalate, List.map_map, List.map_map]
    rfl
  have hspells : ∀ w ∈ ws.map fun w => (w.1, w.2.toList), w.1.Spells w.2 := by
    intro w hw
    obtain ⟨v, hv, rfl⟩ := List.mem_map.1 hw
    exact hws v hv
  obtain ⟨hlist, hstop⟩ := Pieces.scanUpTo_intercalate hspells (Nat.le_refl _)
  rw [← hchars] at hlist hstop
  refine ⟨?_, hstop⟩
  show (Piece.place line 0 _).1.map Lexeme.token = _
  rw [Piece.map_token_place, Pieces.scan, hlist, List.map_map]
  rfl

/-- Quotes hold what would be comments and quotes elsewhere, and signs stand alone and in
numbers. -/
theorem Lexemes.scan_joined_quotes : let ws : List (Token × String) :=
      [(.symbol .slash, "/"), (.symbol .times, "*"), (.strVal "/* '\n", "\"/* '\n\""),
        (.charVal '"', "'\"'"),
        (.symbol .minus, "-"), (.intVal (-3), "-3"), (.symbol .increment, "++"),
          (.keyword .while_, "while"),
        (.ident "whiles", "whiles"), (.special "A", "A"),
          (.decVal (Number.ofDecimal true 5 (-1)), "-.5")]
    (∀ w ∈ ws, w.1.Spells w.2.toList) ∧
      (Lexemes.scan 1 (" ".intercalate (ws.map Prod.snd))).list.map Lexeme.token = ws.map Prod.fst ∧
      (Lexemes.scan 1 (" ".intercalate (ws.map Prod.snd))).stop = .finished := by
  intro ws
  have hws : ∀ w ∈ ws, w.1.Spells w.2.toList := by
    simp only [ws, List.forall_mem_cons]
    refine ⟨.symbol .slash, .symbol .times, .strVal (by decide), .charVal (by decide),
      .symbol .minus, Lexemes.scan_joined.1 (-3) ((Text.lt_tooLong_iff 3).2 (by decide)),
      .symbol .increment, .keyword .while_,
      .ident (by decide) (by decide) (by decide) (by decide) ?_, .special (by decide),
      @Token.Spells.decVal true ['-'] [] ['5'] .minus ?_ ?_ (by simp),
      List.forall_mem_nil _⟩
    · rintro (_ | _ | _ | ⟨_ | _⟩ | _) <;> decide
    · simp [AreDigits]
    · simp [AreDigits]
  exact ⟨hws, Lexemes.scan_joined.2 1 ws hws⟩

end Symphony
