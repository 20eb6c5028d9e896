import Symphony.Proofs.Parsing
import Symphony.Proofs.Spelling

/-!
# Scanning loses nothing

A source is covered, from its start on and without gaps, by the texts of its tokens and by what is
skipped: blanks, line ends and comments (`Piece.Skipped`). `Cut` says this together with the places
of the tokens.

**Theorem (`Lexemes.scan_cut`).** Every source is cut in this way, to its end or to a character at
which neither a token nor anything to be skipped starts, or to an integer with too many digits. A
comment that is not closed is not skipped; its opening is read as two operators.

The rules of the scanner are shown to be sound, that is to say they cut off what they promise, and
complete: where one of them gives nothing, nothing of its sort starts. The second half is needed to
say that a character is illegal.
-/

namespace Symphony

open Scan

variable {after cs rest text : List Char} {p : Piece} {t : Token} {c : Char} {ls : List Lexeme}
  {pos : Nat} {stop : Stop}

/-- What is skipped between tokens, with the text that follows it. A block comment ends where it can
first, and a line comment goes on to the end of its line. -/
inductive Piece.Skipped : Piece → List Char → Prop
  | blanks {text after : List Char} :
      text ≠ [] → (∀ c ∈ text, c = ' ' ∨ c = '\t') → Skipped (.blanks text) after
  | newlines {text after : List Char} :
      text ≠ [] → (∀ c ∈ text, c = '\n') → Skipped (.newlines text) after
  | lineComment {body after : List Char} :
      '\n' ∉ body → (after = [] ∨ ∃ rest, after = '\n' :: rest) →
      Skipped (.lineComment ('/' :: '/' :: body)) after
  | blockComment {body after : List Char} :
      ¬['*', '/'] <:+: body ++ ['*'] →
      Skipped (.blockComment ('/' :: '*' :: (body ++ ['*', '/']))) after

/-- Nothing that is skipped starts here. -/
def Scan.Solid (cs : List Char) : Prop :=
  ∀ (p : Piece) (after : List Char), cs = p.text ++ after → ¬p.Skipped after

/-- Neither a token nor anything that is skipped starts here. -/
def Scan.Illegal (cs : List Char) : Prop :=
  Solid cs ∧ ∀ (t : Token) (text after : List Char), cs = text ++ after → ¬t.Spells text

/-- An integer with too many digits starts here. -/
def Scan.Overlong (cs : List Char) : Prop :=
  ∃ negative s ds after, cs = s ++ ds ++ after ∧ IsSign negative s ∧ AreDigits ds ∧
    Text.digitLimit < ds.length

/-- From a position on, a text is made up of pieces and a rest. The lexemes are those of the tokens
among the pieces, each with the position of its text. A token is only read where nothing is
skipped. -/
inductive Cut : Nat → List Char → List Piece → List Lexeme → List Char → Prop
  | done (pos : Nat) (rest : List Char) : Cut pos rest [] [] rest
  | token {pos line : Nat} {t : Token} {text cs rest : List Char} {ps : List Piece}
      {ls : List Lexeme} :
      t.Spells text → Solid (text ++ cs) → Cut (pos + text.length) cs ps ls rest →
      Cut pos (text ++ cs) (.token t text :: ps) (⟨t, line, pos⟩ :: ls) rest
  | skip {pos : Nat} {p : Piece} {cs rest : List Char} {ps : List Piece} {ls : List Lexeme} :
      p.Skipped cs → Cut (pos + p.text.length) cs ps ls rest →
        Cut pos (p.text ++ cs) (p :: ps) ls rest

/-! ## What is skipped -/

namespace Scan

theorem skipped_of_blanks? (h : blanks? cs = some p) :
    ∃ after, cs = p.text ++ after ∧ p.Skipped after := by
  simp only [blanks?] at h
  split at h
  case isTrue => cases h
  case isFalse hne =>
    cases h
    refine ⟨cs.dropWhile isBlank, List.takeWhile_append_dropWhile.symm, .blanks (by simpa using hne)
      fun c hc => ?_⟩
    have hblank := List.all_eq_true.1 List.all_takeWhile c hc
    simpa [isBlank] using hblank

theorem skipped_of_newlines? (h : newlines? cs = some p) :
    ∃ after, cs = p.text ++ after ∧ p.Skipped after := by
  simp only [newlines?] at h
  split at h
  case isTrue => cases h
  case isFalse hne =>
    cases h
    refine ⟨cs.dropWhile (· == '\n'), List.takeWhile_append_dropWhile.symm,
      .newlines (by simpa using hne) fun c hc => ?_⟩
    simpa using List.all_eq_true.1 List.all_takeWhile c hc

theorem skipped_of_lineComment? (h : lineComment? cs = some p) :
    ∃ after, cs = p.text ++ after ∧ p.Skipped after := by
  unfold lineComment? at h
  split at h
  case h_1 cs =>
    cases h
    refine ⟨cs.dropWhile (· != '\n'), ?_, .lineComment ?_ ?_⟩
    · simp [Piece.text, List.takeWhile_append_dropWhile]
    · intro hmem
      simpa using List.all_eq_true.1 List.all_takeWhile _ hmem
    · cases hdrop : cs.dropWhile (· != '\n') with
      | nil => exact .inl rfl
      | cons c rest =>
        have hc := List.head?_dropWhile_not (· != '\n') cs
        rw [hdrop] at hc
        exact .inr ⟨rest, by simpa using hc⟩
  case h_2 => cases h

/-- The text up to the end of a comment has no other end before it. -/
theorem throughClose_eq_some {t : List Char} (h : throughClose cs = some t) :
    ∃ body after, t = body ++ ['*', '/'] ∧ cs = body ++ ['*', '/'] ++ after ∧
      ¬['*', '/'] <:+: body ++ ['*'] := by
  fun_induction throughClose cs generalizing t with
  | case1 => cases h
  | case2 rest =>
    cases h
    exact ⟨[], rest, rfl, rfl, by decide⟩
  | case3 c cs hnot ih =>
    obtain ⟨u, hu, rfl⟩ := Option.map_eq_some_iff.1 h
    obtain ⟨body, after, rfl, rfl, hfirst⟩ := ih hu
    refine ⟨c :: body, after, rfl, rfl, fun hinfix => ?_⟩
    rw [List.cons_append, List.infix_cons_iff] at hinfix
    rcases hinfix with hprefix | hinfix
    · obtain ⟨hstar, hslash⟩ := List.cons_prefix_cons.1 hprefix
      cases body with
      | nil => simp at hslash
      | cons d body =>
        obtain ⟨rfl, -⟩ := List.cons_prefix_cons.1 hslash
        exact hnot _ hstar.symm rfl
    · exact hfirst hinfix

theorem skipped_of_blockComment? (h : blockComment? cs = some p) :
    ∃ after, cs = p.text ++ after ∧ p.Skipped after := by
  unfold blockComment? at h
  split at h
  case h_1 cs =>
    obtain ⟨t, ht, rfl⟩ := Option.map_eq_some_iff.1 h
    obtain ⟨body, after, rfl, rfl, hfirst⟩ := throughClose_eq_some ht
    exact ⟨after, by simp [Piece.text], .blockComment hfirst⟩
  case h_2 => cases h

/-- A text in which a comment ends is cut off at such an end. -/
theorem throughClose_ne_none (body after : List Char) :
    throughClose (body ++ '*' :: '/' :: after) ≠ none := by
  induction body with
  | nil => simp [throughClose]
  | cons c body ih =>
    rw [List.cons_append]
    unfold throughClose
    split
    case h_1 h => cases h
    case h_2 => simp
    case h_3 h =>
      obtain ⟨rfl, rfl⟩ := List.cons.inj h
      simpa using ih

/-- Where none of four rules applies, nothing is skipped. -/
theorem solid_of_rules (hb : blanks? cs = none) (hc : blockComment? cs = none)
    (hn : newlines? cs = none) (hl : lineComment? cs = none) : Solid cs := by
  rintro p after rfl h
  cases h with
  | @blanks text _ hne htext =>
    cases text with
    | nil => exact hne rfl
    | cons c text =>
      have hblank : isBlank c = true := by simpa [isBlank] using htext c List.mem_cons_self
      simp [Piece.text, blanks?, hblank] at hb
  | @newlines text _ hne htext =>
    cases text with
    | nil => exact hne rfl
    | cons c text =>
      obtain rfl := htext c List.mem_cons_self
      simp [Piece.text, newlines?] at hn
  | lineComment => cases hl
  | @blockComment body _ _ =>
    have htext : (Piece.blockComment ('/' :: '*' :: (body ++ ['*', '/']))).text ++ after =
        '/' :: '*' :: (body ++ '*' :: '/' :: after) := by simp [Piece.text]
    rw [htext, blockComment?, Option.map_eq_none_iff] at hc
    exact throughClose_ne_none body after hc

end Scan

/-! ## What is read -/

theorem Token.spells_ofWord {w : List Char} (hw : IsName w) :
    (Token.ofWord (String.ofList w)).Spells w := by
  have hlist : (String.ofList w).toList = w := String.toList_ofList
  generalize String.ofList w = name at hlist ⊢
  subst hlist
  unfold Token.ofWord
  split
  case isTrue h => exact .special (List.contains_iff_mem.1 h)
  case isFalse hspecial =>
    split
    case isTrue h =>
      rw [beq_iff_eq.1 h]
      exact .boolVal true
    case isFalse htrue =>
      split
      case isTrue h =>
        rw [beq_iff_eq.1 h]
        exact .boolVal false
      case isFalse hfalse =>
        split
        case h_1 k hk =>
          have hspelling : k.spelling = name := by simpa using List.find?_some hk
          rw [← hspelling]
          exact .keyword k
        case h_2 hnone =>
          refine .ident hw (by simpa using hspecial) (by simpa using htrue)
            (by simpa using hfalse) ?_
          rintro k rfl
          rw [Keyword.ofSpelling?_spelling] at hnone
          cases hnone

/-- A token and its text, with which a source starts. -/
inductive Piece.Reads : Piece → List Char → Prop
  | mk {t : Token} {text cs : List Char} : t.Spells text → text <+: cs → Reads (.token t text) cs

namespace Scan

theorem reads_word? (h : word? cs = some p) : p.Reads cs := by
  cases cs with
  | nil => cases h
  | cons c cs =>
    simp only [word?] at h
    split at h
    case isTrue hc =>
      cases h
      refine .mk (Token.spells_ofWord ⟨hc, fun d hd => List.all_eq_true.1 List.all_takeWhile d hd⟩)
        ?_
      exact List.cons_prefix_cons.2 ⟨rfl, List.takeWhile_prefix _⟩
    case isFalse => cases h

/-- A sign is cut off the text it was found in. -/
theorem isSign_sign (cs : List Char) :
    IsSign (sign cs).1 (sign cs).2.1 ∧ cs = (sign cs).2.1 ++ (sign cs).2.2 := by
  unfold sign
  split
  · exact ⟨.plus, rfl⟩
  · exact ⟨.minus, rfl⟩
  · exact ⟨.none, rfl⟩

theorem areDigits_takeWhile (cs : List Char) : AreDigits (cs.takeWhile Char.isDigit) :=
  fun c hc => List.all_eq_true.1 List.all_takeWhile c hc

theorem reads_decimal? (h : decimal? cs = some p) : p.Reads cs := by
  obtain ⟨hsign, hcs⟩ := isSign_sign cs
  unfold decimal? at h
  generalize sign cs = x at h hsign hcs
  obtain ⟨negative, s, cs'⟩ := x
  dsimp only at h hsign hcs
  split at h
  case h_1 rest hrest =>
    split at h
    case isTrue => cases h
    case isFalse hne =>
      cases h
      refine .mk (.decVal hsign (areDigits_takeWhile cs') (areDigits_takeWhile rest)
        (by simpa using hne)) ?_
      refine ⟨rest.dropWhile Char.isDigit, ?_⟩
      have hcs' : cs' = cs'.takeWhile Char.isDigit ++ '.' :: rest := by
        rw [← hrest, List.takeWhile_append_dropWhile]
      rw [hcs, List.append_assoc, List.append_assoc, List.cons_append,
        List.takeWhile_append_dropWhile, ← hcs']
  case h_2 => cases h

theorem reads_integer? (h : integer? cs = some p) :
    p.Reads cs ∨ ∃ text, p = .overlong text ∧ Overlong cs := by
  obtain ⟨hsign, hcs⟩ := isSign_sign cs
  unfold integer? at h
  generalize sign cs = x at h hsign hcs
  obtain ⟨negative, s, cs'⟩ := x
  dsimp only at h hsign hcs
  split at h
  case isTrue => cases h
  case isFalse hne =>
    split at h
    case isTrue hlen =>
      cases h
      refine .inr ⟨_, rfl, negative, s, _, cs'.dropWhile Char.isDigit, ?_, hsign,
        areDigits_takeWhile cs', hlen⟩
      rw [hcs, List.append_assoc, List.takeWhile_append_dropWhile]
    case isFalse hlen =>
      cases h
      refine .inl (.mk (.intVal hsign (areDigits_takeWhile cs') (by simpa using hne)
        (Nat.not_lt.1 hlen)) ?_)
      rw [hcs]
      exact (List.prefix_append_right_inj s).2 (List.takeWhile_prefix _)

theorem reads_character? (h : character? cs = some p) : p.Reads cs := by
  unfold character? at h
  split at h
  case h_1 c rest =>
    split at h
    case isTrue => cases h
    case isFalse hc =>
      cases h
      exact .mk (.charVal hc) ⟨rest, rfl⟩
  case h_2 => cases h

theorem reads_string? (h : string? cs = some p) : p.Reads cs := by
  unfold string? at h
  split at h
  case h_1 cs =>
    dsimp only at h
    split at h
    case h_1 => cases h
    case h_2 c rest hrest =>
      cases h
      have hc := List.head?_dropWhile_not (· != '"') cs
      rw [hrest] at hc
      obtain rfl : c = '"' := by simpa using hc
      have hinside : '"' ∉ cs.takeWhile (· != '"') := by
        intro hmem
        simpa using List.all_eq_true.1 List.all_takeWhile _ hmem
      have hspells := Token.Spells.strVal (s := String.ofList (cs.takeWhile (· != '"')))
          (by simpa using hinside)
      rw [String.toList_ofList] at hspells
      refine .mk hspells ⟨rest, ?_⟩
      have hcs : cs = cs.takeWhile (· != '"') ++ '"' :: rest := by
        rw [← hrest, List.takeWhile_append_dropWhile]
      simp [← hcs]
  case h_2 => cases h

theorem reads_symbol? (h : symbol? cs = some p) : p.Reads cs := by
  unfold symbol? at h
  split at h <;> cases h <;> exact .mk (.symbol _) ⟨_, rfl⟩

/-! ## The first piece -/

/-- A source starts with what its first piece says. -/
theorem first?_cases (h : Piece.first? cs = some p) :
    (∃ after, cs = p.text ++ after ∧ p.Skipped after) ∨ p.Reads cs ∨ ∃ text, p = .overlong text ∧
      Overlong cs := by
  obtain ⟨rule, hrule, h⟩ := List.exists_of_findSome?_eq_some h
  simp only [rules, List.mem_cons, List.not_mem_nil, or_false] at hrule
  rcases hrule with rfl | rfl | rfl | rfl | rfl | rfl | rfl | rfl | rfl | rfl
  · exact .inl (skipped_of_blanks? h)
  · exact .inl (skipped_of_blockComment? h)
  · exact .inr (.inl (reads_word? h))
  · exact .inr (.inl (reads_decimal? h))
  · exact .inr (reads_integer? h)
  · exact .inr (.inl (reads_character? h))
  · exact .inr (.inl (reads_string? h))
  · exact .inl (skipped_of_newlines? h)
  · exact .inl (skipped_of_lineComment? h)
  · exact .inr (.inl (reads_symbol? h))

/-- A rule that skips has not applied if a token was read. -/
theorem none_of_or_eq_token {skipping others : Option Piece}
    (hskipping : ∀ p, skipping = some p → ∃ after, cs = p.text ++ after ∧ p.Skipped after)
    (h : skipping.or others = some (.token t text)) :
    skipping = none ∧ others = some (.token t text) := by
  cases skipping with
  | none => exact ⟨rfl, h⟩
  | some p =>
    cases h
    obtain ⟨after, -, hskipped⟩ := hskipping _ rfl
    cases hskipped

/-- A token is read only where nothing can be skipped. The two rules that skip and come late are for
characters with which nothing else starts, or only a symbol. -/
theorem solid_of_first? (h : Piece.first? cs = some (.token t text)) : Solid cs := by
  cases cs with
  | nil => cases h
  | cons c cs =>
    rw [Piece.first?_eq] at h
    obtain ⟨hblanks, h⟩ := none_of_or_eq_token (fun _ => skipped_of_blanks?) h
    obtain ⟨hblock, h⟩ := none_of_or_eq_token (fun _ => skipped_of_blockComment?) h
    refine solid_of_rules hblanks hblock ?_ ?_
    · by_cases hc : c = '\n'
      · subst hc
        rw [word?_cons (by decide), decimal?_cons (by decide) (by decide) (by decide) (by decide),
          integer?_cons (by decide) (by decide) (by decide), character?_cons (by decide),
            string?_cons (by decide)] at h
        simp only [Option.none_or] at h
        exact (none_of_or_eq_token (fun _ => skipped_of_newlines?) h).1
      · exact newlines?_cons hc
    · by_cases hc : c = '/'
      · subst hc
        rw [word?_cons (by decide), decimal?_cons (by decide) (by decide) (by decide) (by decide),
          integer?_cons (by decide) (by decide) (by decide), character?_cons (by decide),
            string?_cons (by decide), newlines?_cons (by decide)] at h
        simp only [Option.none_or] at h
        exact (none_of_or_eq_token (fun _ => skipped_of_lineComment?) h).1
      · exact lineComment?_cons hc

/-! ## Nothing is overlooked -/

section

variable {negative : Bool} {s ds whole places : List Char}

/-- Characters that start a symbol of two characters are symbols themselves. -/
theorem symbol?_cons_ne_none (hc : c = '+' ∨ c = '-' ∨ c = '*' ∨ c = '>' ∨ c = '<')
    (after : List Char) : symbol? (c :: after) ≠ none := by
  cases after with
  | nil => rcases hc with rfl | rfl | rfl | rfl | rfl <;> exact Option.some_ne_none _
  | cons d after =>
    by_cases hd : d = '+' ∨ d = '-' ∨ d = '*' ∨ d = '='
    · rcases hc with rfl | rfl | rfl | rfl | rfl <;> rcases hd with rfl | rfl | rfl | rfl <;>
        exact Option.some_ne_none _
    · simp only [not_or] at hd
      rcases hc with rfl | rfl | rfl | rfl | rfl <;> simp [symbol?, hd]

theorem symbol?_ne_none (x : Symbol) (after : List Char) :
    symbol? (x.spelling.toList ++ after) ≠ none := by
  cases x with
  | plus => exact symbol?_cons_ne_none (c := '+') (by decide) after
  | minus => exact symbol?_cons_ne_none (c := '-') (by decide) after
  | times => exact symbol?_cons_ne_none (c := '*') (by decide) after
  | gt => exact symbol?_cons_ne_none (c := '>') (by decide) after
  | lt => exact symbol?_cons_ne_none (c := '<') (by decide) after
  | _ => exact Option.some_ne_none _

theorem integer?_ne_none (hs : IsSign negative s) (hds : AreDigits ds) (hne : ds ≠ [])
    (after : List Char) : integer? (s ++ ds ++ after) ≠ none := by
  cases ds with
  | nil => exact absurd rfl hne
  | cons d ds =>
    have hd := hds d List.mem_cons_self
    have hsign : sign (s ++ (d :: ds ++ after)) = (negative, s, d :: ds ++ after) := by
      refine sign_append hs ?_ ?_ <;>
      · intro h
        cases h
        exact absurd hd (by decide)
    unfold integer?
    rw [List.append_assoc, hsign]
    dsimp only
    rw [List.cons_append, List.takeWhile_cons_of_pos hd, if_neg (by simp)]
    split <;> exact Option.some_ne_none _

theorem decimal?_ne_none (hs : IsSign negative s) (hwhole : AreDigits whole)
    (hplaces : AreDigits places) (hne : places ≠ []) (after : List Char) :
    decimal? (s ++ whole ++ '.' :: places ++ after) ≠ none := by
  cases places with
  | nil => exact absurd rfl hne
  | cons d places =>
    rw [List.append_assoc, List.append_assoc, List.cons_append, List.cons_append,
      decimal?_point hs hwhole, List.takeWhile_cons_of_pos (hplaces d List.mem_cons_self),
      if_neg (by simp)]
    exact Option.some_ne_none _

theorem string?_ne_none (htext : '"' ∉ text) (after : List Char) :
    string? ('"' :: text ++ ['"'] ++ after) ≠ none := by
  have hinside : ∀ c ∈ text, (c != '"') = true := fun c hc => bne_iff_ne.2 fun h => htext (h ▸ hc)
  have hcs : '"' :: text ++ ['"'] ++ after = '"' :: (text ++ '"' :: after) := by simp
  rw [hcs]
  simp only [string?]
  rw [List.dropWhile_append_of_pos hinside]
  simp

end

end Scan

/-- Where a token is spelt, some rule applies. -/
theorem Token.Spells.first?_ne_none (h : t.Spells text) (after : List Char) :
    Piece.first? (text ++ after) ≠ none := by
  have happly : ∀ rule ∈ rules, rule (text ++ after) ≠ none → Piece.first? (text ++ after) ≠ none :=
    fun rule hrule hne hnone => hne (List.findSome?_eq_none_iff.1 hnone rule hrule)
  have hword : IsName text → Piece.first? (text ++ after) ≠ none := by
    intro hname
    refine happly word? (by simp [rules]) ?_
    cases text with
    | nil => exact absurd hname id
    | cons c text => simp [word?, hname.1]
  cases h with
  | keyword k => exact hword (isName_keyword k)
  | boolVal b => exact hword (isName_bool b)
  | special hname => exact hword (isName_special _ hname)
  | ident hname => exact hword hname
  | symbol x => exact happly symbol? (by simp [rules]) (symbol?_ne_none x after)
  | intVal hs hds hne => exact happly integer? (by simp [rules]) (integer?_ne_none hs hds hne after)
  | decVal hs hwhole hplaces hne =>
    exact happly decimal? (by simp [rules]) (decimal?_ne_none hs hwhole hplaces hne after)
  | charVal hc =>
    refine happly character? (by simp [rules]) ?_
    simp [character?, hc]
  | strVal hs => exact happly string? (by simp [rules]) (string?_ne_none hs after)

/-- Where no rule applies, neither a token nor anything that is skipped starts. -/
theorem Scan.illegal_of_first? (h : Piece.first? cs = none) : Illegal cs := by
  have hrules := List.findSome?_eq_none_iff.1 h
  refine ⟨solid_of_rules (hrules _ (by simp [rules])) (hrules _ (by simp [rules]))
    (hrules _ (by simp [rules]))
    (hrules _ (by simp [rules])), ?_⟩
  rintro t text after rfl hspells
  exact hspells.first?_ne_none after h

/-! ## Whole sources -/

/-- What is left of a source where scanning stops. -/
def Stop.Leaves : Stop → List Char → Prop
  | finished, rest => rest = []
  | illegal c, rest => rest.head? = some c ∧ Illegal rest
  | overlong, rest => Overlong rest

theorem Piece.Skipped.ne_nil (h : p.Skipped after) : p.text ≠ [] := by
  cases h with
  | blanks hne => exact hne
  | newlines hne => exact hne
  | lineComment => exact List.cons_ne_nil _ _
  | blockComment => exact List.cons_ne_nil _ _

/-- A piece that is skipped is not placed. -/
theorem Piece.Skipped.place (h : p.Skipped after) (line pos : Nat) (ps : List Piece) :
    ∃ line', (Piece.place line pos (p :: ps)).1 =
      (Piece.place line' (pos + p.text.length) ps).1 := by
  cases h with
  | newlines => exact ⟨_, rfl⟩
  | blanks | lineComment | blockComment => exact ⟨line, rfl⟩

theorem Pieces.cut_scanUpTo {fuel : Nat} (hfuel : cs.length ≤ fuel) (line pos : Nat) :
    ∃ ps rest, Cut pos cs ps (Piece.place line pos (scanUpTo fuel cs).list).1 rest ∧
      ps.length ≤ cs.length ∧ (scanUpTo fuel cs).stop.Leaves rest := by
  fun_induction scanUpTo fuel cs generalizing line pos with
  | case1 cs =>
    obtain rfl : cs = [] := by simpa using hfuel
    exact ⟨[], [], .done _ _, Nat.le_refl _, rfl⟩
  | case2 => exact ⟨[], [], .done _ _, Nat.le_refl _, rfl⟩
  | case3 fuel c cs hnone =>
    exact ⟨[], c :: cs, .done _ _, Nat.zero_le _, rfl, illegal_of_first? hnone⟩
  | case4 fuel c cs text hover =>
    refine ⟨[], c :: cs, .done _ _, Nat.zero_le _, ?_⟩
    rcases first?_cases hover with ⟨_, -, hskipped⟩ | hreads | ⟨_, -, hoverlong⟩
    · cases hskipped
    · cases hreads
    · exact hoverlong
  | case5 fuel c cs p hp hfirst rest ih =>
    -- The rest is shorter, since no piece is empty.
    have hrest : ∀ after, c :: cs = p.text ++ after → p.text ≠ [] →
        after.length + 1 ≤ (c :: cs).length ∧
        ∀ line' pos', ∃ ps rest', Cut pos' after ps (Piece.place line' pos' rest.list).1 rest' ∧
          ps.length ≤ after.length ∧ rest.stop.Leaves rest' := by
      intro after hafter hne
      have hdrop : (c :: cs).drop p.text.length = after := by rw [hafter, List.drop_left]
      have hpos := List.length_pos_iff.2 hne
      have hlength : (c :: cs).length = p.text.length + after.length := by
        rw [hafter, List.length_append]
      refine ⟨by omega, fun line' pos' => ?_⟩
      rw [← hdrop]
      exact ih (by rw [hdrop]; omega) line' pos'
    rcases first?_cases hfirst with ⟨after, hafter, hskipped⟩ | hreads | ⟨text, rfl, -⟩
    · obtain ⟨hle, hcut⟩ := hrest after hafter hskipped.ne_nil
      obtain ⟨line', hplace⟩ := hskipped.place line pos rest.list
      obtain ⟨ps, rest', hcut, hps, hstop⟩ := hcut line' (pos + p.text.length)
      refine ⟨p :: ps, rest', ?_, ?_, hstop⟩
      · rw [hplace, hafter]
        exact .skip hskipped hcut
      · rw [List.length_cons]
        omega
    · cases hreads with
      | @mk t text _ hspells hprefix =>
        obtain ⟨after, hafter⟩ := hprefix
        obtain ⟨hle, hcut⟩ := hrest after hafter.symm hspells.ne_nil
        obtain ⟨ps, rest', hcut, hps, hstop⟩ := hcut line (pos + text.length)
        refine ⟨.token t text :: ps, rest', ?_, ?_, hstop⟩
        · have hsolid := solid_of_first? hfirst
          rw [← hafter] at hsolid ⊢
          exact .token hspells hsolid hcut
        · rw [List.length_cons]
          omega
    · exact absurd rfl (hp text)

/-! ## Comments that are not closed -/

/-- Only a token that is no word, number or quote starts with one of the characters that open a
comment. -/
theorem Token.Spells.symbol?_eq (h : t.Spells (c :: text)) (hc : c = '/' ∨ c = '*') :
    symbol? (c :: text) = some (.token t (c :: text)) := by
  have hfirst := h.first? (.inl rfl)
  rw [List.append_nil, Piece.first?_eq] at hfirst
  have hother : isBlank c = false ∧ isLetter c = false ∧ c ≠ '+' ∧ c ≠ '-' ∧ c.isDigit = false ∧
      c ≠ '.' ∧ c ≠ '\'' ∧ c ≠ '"' ∧ c ≠ '\n' := by
    rcases hc with rfl | rfl <;> decide
  obtain ⟨h₁, h₂, h₃, h₄, h₅, h₆, h₇, h₈, h₉⟩ := hother
  rw [blanks?_cons h₁, word?_cons h₂, decimal?_cons h₃ h₄ h₅ h₆, integer?_cons h₃ h₄ h₅,
    character?_cons h₇, string?_cons h₈, newlines?_cons h₉] at hfirst
  simp only [Option.none_or] at hfirst
  obtain ⟨-, hfirst⟩ := none_of_or_eq_token (fun _ => skipped_of_blockComment?) hfirst
  exact (none_of_or_eq_token (fun _ => skipped_of_lineComment?) hfirst).2

theorem Token.Spells.eq_slash (h : t.Spells ('/' :: text)) : t = .symbol .slash ∧ text = [] := by
  have hsymbol : some (Piece.token (.symbol .slash) ['/']) = _ := h.symbol?_eq (.inl rfl)
  cases hsymbol
  exact ⟨rfl, rfl⟩

theorem Token.Spells.eq_star (h : t.Spells ('*' :: text)) :
    ∃ x : Symbol, (x = .times ∨ x = .power) ∧ t = .symbol x ∧ '*' :: text = x.spelling.toList := by
  have hsymbol := h.symbol?_eq (.inr rfl)
  by_cases hstar : ∃ rest, text = '*' :: rest
  · obtain ⟨rest, rfl⟩ := hstar
    have hpower : some (Piece.token (.symbol .power) ['*', '*']) = _ := hsymbol
    cases hpower
    exact ⟨.power, .inr rfl, rfl, rfl⟩
  · have htimes : symbol? ('*' :: text) = some (.token (.symbol .times) ['*']) := by
      cases text with
      | nil => rfl
      | cons d text =>
        have hd : d ≠ '*' := fun hd => hstar ⟨text, hd ▸ rfl⟩
        simp [symbol?, hd]
    rw [htimes] at hsymbol
    cases hsymbol
    exact ⟨.times, .inl rfl, rfl, rfl⟩

/-- Scanning does not stop at a symbol that is no sign. -/
theorem Stop.Leaves.ne_symbol (h : stop.Leaves rest) {x : Symbol} (hx : x = .slash ∨ x = .times)
    (after : List Char) : rest ≠ x.spelling.toList ++ after := by
  rintro rfl
  cases stop with
  | finished => rcases hx with rfl | rfl <;> cases h
  | illegal c => exact h.2.2 _ _ _ rfl (.symbol x)
  | overlong =>
    obtain ⟨negative, s, ds, after', heq, hs, hds, hlen⟩ := h
    cases ds with
    | nil => exact absurd hlen (Nat.not_lt_zero _)
    | cons d ds =>
      have hd := hds d List.mem_cons_self
      rcases hx with rfl | rfl <;> cases hs <;> cases heq <;> exact absurd hd (by decide)

/-- What is skipped and starts with one of the characters that open a comment is a comment. -/
theorem Piece.Skipped.isComment (h : p.Skipped after) (heq : p.text ++ after = c :: cs)
    (hc : c = '/' ∨ c = '*') :
    c = '/' ∧ ((∃ rest, cs = '/' :: rest) ∨ ∃ body, cs = '*' :: (body ++ ['*', '/'] ++ after)) := by
  have hblank : ∀ text : List Char, text ≠ [] → text ++ after = c :: cs → ∃ d ∈ text, d = c := by
    intro text hne heq
    cases text with
    | nil => exact absurd rfl hne
    | cons d text => exact ⟨d, List.mem_cons_self, (List.cons.inj heq).1⟩
  cases h with
  | blanks hne htext =>
    obtain ⟨d, hd, rfl⟩ := hblank _ hne heq
    rcases hc with rfl | rfl <;> exact absurd (htext _ hd) (by decide)
  | newlines hne htext =>
    obtain ⟨d, hd, rfl⟩ := hblank _ hne heq
    rcases hc with rfl | rfl <;> exact absurd (htext _ hd) (by decide)
  | lineComment =>
    obtain ⟨rfl, rfl⟩ := List.cons.inj heq
    exact ⟨rfl, .inl ⟨_, rfl⟩⟩
  | @blockComment body _ _ =>
    obtain ⟨rfl, rfl⟩ := List.cons.inj heq
    exact ⟨rfl, .inr ⟨body, rfl⟩⟩

/-- A multiplication or a power is read, not skipped. -/
theorem Cut.star {post : List Char} {ps : List Piece} (h : Cut pos ('*' :: post) ps ls rest)
    (hstop : stop.Leaves rest) :
    ∃ (x : Symbol) (ps' : List Piece), (x = .times ∨ x = .power) ∧
      ps = .token (.symbol x) x.spelling.toList :: ps' := by
  generalize hcs : '*' :: post = cs at h
  cases h with
  | done => exact absurd hcs.symm (hstop.ne_symbol (.inr rfl) post)
  | @token _ _ t text cs' _ ps' _ hspells _ _ =>
    cases text with
    | nil => exact absurd rfl hspells.ne_nil
    | cons c text =>
      obtain rfl := (List.cons.inj hcs).1
      obtain ⟨x, hx, rfl, htext⟩ := hspells.eq_star
      exact ⟨x, ps', hx, by rw [htext]⟩
  | skip hskipped _ => exact absurd (hskipped.isComment hcs.symm (.inr rfl)).1 (by decide)

/-- A comment that is opened and never closed is read as two operators. -/
theorem Cut.unclosed {post : List Char} {ps : List Piece}
    (h : Cut pos ('/' :: '*' :: post) ps ls rest) (hopen : ¬['*', '/'] <:+: post)
    (hstop : stop.Leaves rest) :
    ∃ (x : Symbol) (ps' : List Piece), (x = .times ∨ x = .power) ∧
      ps = .token (.symbol .slash) ['/'] :: .token (.symbol x) x.spelling.toList :: ps' := by
  generalize hcs : '/' :: '*' :: post = cs at h
  cases h with
  | done => exact absurd hcs.symm (hstop.ne_symbol (.inl rfl) _)
  | @token _ _ t text cs' _ ps' _ hspells _ hcut =>
    cases text with
    | nil => exact absurd rfl hspells.ne_nil
    | cons c text =>
      obtain rfl := (List.cons.inj hcs).1
      obtain ⟨rfl, rfl⟩ := hspells.eq_slash
      obtain rfl : '*' :: post = cs' := (List.cons.inj hcs).2
      obtain ⟨x, ps'', hx, rfl⟩ := hcut.star hstop
      exact ⟨x, ps'', hx, rfl⟩
  | skip hskipped _ =>
    rcases (hskipped.isComment hcs.symm (.inl rfl)).2 with ⟨_, hline⟩ | ⟨body, hblock⟩
    · cases hline
    · exact absurd ⟨body, _, (List.cons.inj hblock).2.symm⟩ hopen

/-- The pieces after the first ones cut the rest of the text. -/
theorem Cut.exists_of_append {before after : List Piece}
    (h : Cut pos cs (before ++ after) ls rest) :
    ∃ pos' cs' ls', cs = before.flatMap Piece.text ++ cs' ∧ Cut pos' cs' after ls' rest := by
  induction before generalizing pos cs ls with
  | nil => exact ⟨pos, cs, ls, rfl, h⟩
  | cons p before ih =>
    cases h with
    | token _ _ h =>
      obtain ⟨pos', cs', ls', rfl, hcut⟩ := ih h
      exact ⟨pos', cs', ls', by simp [Piece.text], hcut⟩
    | skip _ h =>
      obtain ⟨pos', cs', ls', rfl, hcut⟩ := ih h
      exact ⟨pos', cs', ls', by simp, hcut⟩

/-- Scanning cuts a source into tokens and what is skipped between them, without a gap, to its end
or to where it stops, and reads a comment that is never closed as operators. -/
theorem Lexemes.scan_cut (line : Nat) (source : String) :
    ∃ ps rest, Cut 0 source.toList ps (Lexemes.scan line source).list rest ∧
      ps.length ≤ source.toList.length ∧ (Lexemes.scan line source).stop.Leaves rest ∧
      ∀ before after post, ps = before ++ after →
        source.toList = before.flatMap Piece.text ++ '/' :: '*' :: post →
        ¬['*', '/'] <:+: post → ∃ (x : Symbol) (after' : List Piece), (x = .times ∨ x = .power) ∧
          after = .token (.symbol .slash) ['/'] :: .token (.symbol x) x.spelling.toList ::
            after' := by
  obtain ⟨ps, rest, hcut, hlength, hstop⟩ :=
    Pieces.cut_scanUpTo (Nat.le_refl source.toList.length) line 0
  refine ⟨ps, rest, hcut, hlength, hstop, ?_⟩
  rintro before after post rfl hsource hopen
  obtain ⟨pos', cs', ls', hcs, hcut'⟩ := hcut.exists_of_append
  obtain rfl : cs' = '/' :: '*' :: post := List.append_cancel_left (hcs.symm.trans hsource)
  exact hcut'.unclosed hopen hstop

end Symphony
