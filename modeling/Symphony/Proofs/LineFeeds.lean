import Symphony.Proofs.Coverage

/-!
# Which line feeds are counted

A token carries the number of the line it is on. The scanner goes on to the next line at the line
feeds between tokens. It does not see those inside a block comment, a character or a text
(`Piece.encloses`).

**Theorem (`Lexemes.line_of_token`).** The line of a token and the number of line feeds that were
enclosed before it add up to the line on which the token really is. So the line of a token is right
if and only if nothing before it encloses a line feed.

A piece that encloses nothing holds line feeds only if it is made of them (`Scan.count_first?`). The
rest is an induction over the pieces of the source.
-/

namespace Symphony

open Scan

variable {p : Piece}

namespace Piece

/-- Block comments, characters and texts may hold line feeds, which are not counted. -/
def encloses : Piece → Bool
  | blockComment _ => true
  | token (.charVal _) _ => true
  | token (.strVal _) _ => true
  | _ => false

/-- How many line feeds a piece encloses. -/
def enclosed (p : Piece) : Nat :=
  if p.encloses then p.text.count '\n' else 0

/-- How many line feeds pieces enclose. -/
def enclosedIn : List Piece → Nat
  | [] => 0
  | p :: ps => p.enclosed + enclosedIn ps

/-- How many lines the scanner goes on at a piece. -/
def advance : Piece → Nat
  | newlines text => text.length
  | _ => 0

/-- The lexeme of a piece that is a token. -/
def lexeme? (line pos : Nat) : Piece → Option Lexeme
  | token t _ => some ⟨t, line, pos⟩
  | _ => none

theorem place_cons (line pos : Nat) (p : Piece) (ps : List Piece) :
    (place line pos (p :: ps)).1 =
      (p.lexeme? line pos).toList ++ (place (line + p.advance) (pos + p.text.length) ps).1 := by
  cases p <;> rfl

theorem enclosedIn_eq_zero {ps : List Piece} :
    enclosedIn ps = 0 ↔ ∀ p ∈ ps, p.encloses = true → '\n' ∉ p.text := by
  have hpiece : ∀ p : Piece, p.enclosed = 0 ↔ (p.encloses = true → '\n' ∉ p.text) := by
    intro p
    unfold enclosed
    split <;> simp_all [List.count_eq_zero]
  induction ps with
  | nil => simp [enclosedIn]
  | cons p ps ih => simp [enclosedIn, ih, hpiece]

end Piece

/-! ## Line feeds of a piece -/

namespace Scan

theorem newline_not_mem_name {w : List Char} (h : IsName w) : '\n' ∉ w := by
  cases w with
  | nil => exact absurd h id
  | cons c w =>
    intro hmem
    rcases List.mem_cons.1 hmem with rfl | hmem
    · exact absurd h.1 (by decide)
    · exact absurd (h.2 _ hmem) (by decide)

theorem newline_not_mem_digits {ds : List Char} (h : AreDigits ds) : '\n' ∉ ds :=
  fun hmem => absurd (h _ hmem) (by decide)

theorem newline_not_mem_sign {negative : Bool} {s : List Char} (h : IsSign negative s) :
    '\n' ∉ s := by
  cases h <;> decide

end Scan

/-- Words, numbers and symbols are on one line. -/
theorem Token.Spells.newline_not_mem {t : Token} {text : List Char} (h : t.Spells text)
    (ht : (Piece.token t text).encloses = false) : '\n' ∉ text := by
  cases h with
  | keyword k => exact newline_not_mem_name (isName_keyword k)
  | symbol x => cases x <;> decide
  | boolVal b => exact newline_not_mem_name (isName_bool b)
  | special hname => exact newline_not_mem_name (isName_special _ hname)
  | ident hname => exact newline_not_mem_name hname
  | intVal hs hds => simp [newline_not_mem_sign hs, newline_not_mem_digits hds]
  | decVal hs hwhole hplaces =>
    simp [newline_not_mem_sign hs, newline_not_mem_digits hwhole, newline_not_mem_digits hplaces]
  | charVal => cases ht
  | strVal => cases ht

theorem Piece.Skipped.count {after : List Char} (h : p.Skipped after) :
    p.text.count '\n' = p.advance + p.enclosed := by
  cases h with
  | blanks _ htext =>
    have hnone : '\n' ∉ _ := fun hmem => absurd (htext _ hmem) (by decide)
    simpa [Piece.text, Piece.advance, Piece.enclosed, Piece.encloses] using List.count_eq_zero.2
      hnone
  | newlines _ htext =>
    have hall := List.count_eq_length.2 fun c hc => (htext c hc).symm
    simpa [Piece.text, Piece.advance, Piece.enclosed, Piece.encloses] using hall
  | lineComment hbody =>
    simpa [Piece.text, Piece.advance, Piece.enclosed, Piece.encloses] using List.count_eq_zero.2
      hbody
  | blockComment => simp [Piece.advance, Piece.enclosed, Piece.encloses]

theorem Piece.Reads.count {cs : List Char} (h : p.Reads cs) :
    p.text.count '\n' = p.advance + p.enclosed := by
  cases h with
  | @mk t text _ hspells _ =>
    rw [show (Piece.token t text).advance = 0 from rfl, Nat.zero_add, Piece.enclosed]
    split
    case isTrue => rfl
    case isFalse ht => exact List.count_eq_zero.2 (hspells.newline_not_mem (by simpa using ht))

/-- The line feeds of the first piece are counted or enclosed. -/
theorem Scan.count_first? {cs : List Char} (h : Piece.first? cs = some p)
    (hp : ∀ text, p ≠ .overlong text) :
    p.text <+: cs ∧ p.text.count '\n' = p.advance + p.enclosed := by
  rcases first?_cases h with ⟨after, rfl, hskipped⟩ | hreads | ⟨text, rfl, -⟩
  · exact ⟨List.prefix_append _ _, hskipped.count⟩
  · refine ⟨?_, hreads.count⟩
    cases hreads with
    | mk _ hprefix => exact hprefix
  · exact absurd rfl (hp text)

/-! ## Lines of tokens -/

/-- A lexeme and the piece it was made of, with the pieces before it: they are what the source has
before the token, and account for its position and, with what they enclose, for its line. -/
structure Lexeme.Counts (l : Lexeme) (line pos : Nat) (cs : List Char) (ps before : List Piece) :
    Prop where
  piece : ∃ text rest after, ps = before ++ .token l.token text :: after ∧
    cs = before.flatMap Piece.text ++ (text ++ rest)
  position : l.position = pos + (before.flatMap Piece.text).length
  line : l.line + Piece.enclosedIn before = line + (before.flatMap Piece.text).count '\n'

/-- One more piece at the front. -/
theorem Lexeme.Counts.cons {l : Lexeme} {line pos : Nat} {cs : List Char} {ps before : List Piece}
    {p : Piece} (h : l.Counts (line + p.advance) (pos + p.text.length) cs ps before)
    (hp : p.text.count '\n' = p.advance + p.enclosed) :
    l.Counts line pos (p.text ++ cs) (p :: ps) (p :: before) where
  piece := by
    obtain ⟨text, rest, after, rfl, rfl⟩ := h.piece
    exact ⟨text, rest, after, rfl, by simp⟩
  position := by
    rw [h.position, List.flatMap_cons, List.length_append, Nat.add_assoc]
  line := by
    have hline := h.line
    rw [Piece.enclosedIn, List.flatMap_cons, List.count_append, hp]
    omega

theorem Pieces.counts_scanUpTo (fuel : Nat) (cs : List Char) (line pos : Nat) :
    ∀ l ∈ (Piece.place line pos (scanUpTo fuel cs).list).1,
      ∃ before, l.Counts line pos cs (scanUpTo fuel cs).list before := by
  fun_induction scanUpTo fuel cs generalizing line pos with
  | case1 | case2 | case3 | case4 => exact List.forall_mem_nil _
  | case5 fuel c cs p hp hfirst rest ih =>
    intro l h
    obtain ⟨⟨after, hafter⟩, hcount⟩ := count_first? hfirst hp
    have hsplit : p.text ++ (c :: cs).drop p.text.length = c :: cs := by
      rw [← hafter, List.drop_left]
    rw [Piece.place_cons, List.mem_append] at h
    rcases h with h | h
    · -- the lexeme is that of the first piece
      cases p with
      | token t text =>
        obtain rfl := List.mem_singleton.1 h
        exact ⟨[], ⟨text, after, rest.list, rfl, hafter.symm⟩, rfl, rfl⟩
      | _ => cases h
    · obtain ⟨before, hbefore⟩ := ih _ _ l h
      have hcounts := hbefore.cons hcount
      rw [hsplit] at hcounts
      exact ⟨p :: before, hcounts⟩

/-- The line of a token falls short of the true one by the number of line feeds in the block
comments, characters and texts before it. -/
theorem Lexemes.line_of_token (source : String) :
    ∀ l ∈ (Lexemes.scan 1 source).list, ∃ (before after : List Piece) (text rest : List Char),
      (Pieces.scan source.toList).list = before ++ .token l.token text :: after ∧
      source.toList = before.flatMap Piece.text ++ (text ++ rest) ∧
      source.toList.take l.position = before.flatMap Piece.text ∧
      l.line + Piece.enclosedIn before = 1 + (source.toList.take l.position).count '\n' ∧
      (l.line = 1 + (source.toList.take l.position).count '\n' ↔
        ∀ p ∈ before, p.encloses = true → '\n' ∉ p.text) := by
  intro l hl
  obtain ⟨before, hpiece, hposition, hline⟩ := Pieces.counts_scanUpTo _ _ _ _ l hl
  obtain ⟨text, rest, after, hpieces, hsource⟩ := hpiece
  have htake : source.toList.take l.position = before.flatMap Piece.text := by
    rw [hposition, Nat.zero_add, hsource, List.take_left]
  refine ⟨before, after, text, rest, hpieces, hsource, htake, by rw [htake, hline], ?_⟩
  rw [htake, ← Piece.enclosedIn_eq_zero]
  omega

/-- Four line feeds come before the name, and it is said to be on the second line: a character, a
text and a comment enclose one each. -/
theorem Lexemes.line_of_token_enclosed :
    let source := "'\n' \"\n\" /*\n*/\nx"
    (⟨.ident "x", 2, 14⟩ : Lexeme) ∈ (Lexemes.scan 1 source).list ∧
      (source.toList.take 14).count '\n' = 4 ∧
      ∃ before after text,
        (Pieces.scan source.toList).list = before ++ .token (.ident "x") text :: after ∧
        Piece.enclosedIn before = 3 ∧ ¬∀ p ∈ before, p.encloses = true → '\n' ∉ p.text := by
  intro source
  have hmem : (⟨.ident "x", 2, 14⟩ : Lexeme) ∈ (Lexemes.scan 1 source).list := by decide +kernel
  have hcount : (source.toList.take 14).count '\n' = 4 := by decide +kernel
  obtain ⟨before, after, text, _, hpieces, -, -, hline, hiff⟩ := line_of_token source _ hmem
  rw [hcount] at hline hiff
  refine ⟨hmem, hcount, before, after, text, hpieces, ?_, fun hall =>
    absurd (hiff.2 hall) (by decide)⟩
  dsimp only at hline
  omega

end Symphony
