import Symphony.Proofs.Code
import Symphony.Proofs.Places

/-!
# Programs are read as they are written

The fields of all quads that the compiler emits are words: numbers, operators and names.

**Theorem (`Tree.code_ofText`).** The machine therefore reads, from the text of a program, the
fields that were written.
-/

namespace Symphony

theorem Stored.isSolid {rs : List Reservation} {f : Field} (h : Stored rs f) : f.IsSolid := by
  obtain ⟨t, h⟩ := h
  cases h with
  | num => exact Field.isSolid_num _
  | pointer => exact Field.isSolid_pointer _

/-- The name of a function is one word. -/
def Scope.IsSolid (s : Scope) : Prop := (Field.word s.text).IsSolid

theorem isBlank_of_isWordChar {c : Char} (h : Scan.isWordChar c = true) :
    Text.isBlank c = false := by
  have hcases : c = '_' ∨ (48 ≤ c.toNat ∧ c.toNat ≤ 57) ∨ (65 ≤ c.toNat ∧ c.toNat ≤ 90) ∨
      (97 ≤ c.toNat ∧ c.toNat ≤ 122) := by
    delta Scan.isWordChar Scan.isLetter Char.isAlpha Char.isUpper Char.isLower Char.isDigit at h
    simp only [UInt32.le_iff_toNat_le, Bool.or_eq_true, beq_iff_eq, Bool.and_eq_true,
      decide_eq_true_eq] at h
    rcases h with ((h | h) | h) | h
    · exact .inr (.inr (.inl h))
    · exact .inr (.inr (.inr h))
    · exact .inl h
    · exact .inr (.inl h)
  rcases hcases with rfl | h
  · decide
  · simp only [Text.isBlank, Bool.or_eq_false_iff, Bool.and_eq_false_iff, decide_eq_false_iff_not,
      beq_eq_false_iff_ne]
    omega

theorem IsWord.isSolid {name : String} (h : IsWord name) : Scope.IsSolid (some name) :=
  ⟨h.1, fun c hc => isBlank_of_isWordChar (h.2 c hc)⟩

theorem Field.isSolid_word {w : String}
    (h : w.toList ≠ [] ∧ w.toList.all (fun c => !Text.isBlank c) = true) : (Field.word w).IsSolid :=
  ⟨h.1, fun c hc => by simpa using List.all_eq_true.1 h.2 c hc⟩

/-- All fields of a quad are words. -/
theorem Quad.At.isSolid {rs : List Reservation} {bs : List Int} {qs : Array Quad} {i : Nat}
    {q : Quad} (h : q.At Scope.IsSolid rs bs qs i) : ∀ f ∈ q, f.IsSolid := by
  have hnums : ∀ ts : List Int, ∀ f ∈ ts.map Field.num, f.IsSolid := by
    intro ts f hf
    obtain ⟨t, -, rfl⟩ := List.mem_map.1 hf
    exact Field.isSolid_num t
  have hnil := List.forall_mem_nil Field.IsSolid
  cases h with
  | gosub h =>
    simp only [List.forall_mem_cons]
    exact ⟨Field.isSolid_word (by decide), h, hnil⟩
  | access _ _ hx =>
    simp only [List.forall_mem_cons]
    exact ⟨Field.isSolid_word (by decide), Field.isSolid_num _, hx.isSolid,
      Field.isSolid_num _, hnil⟩
  | plain h =>
    cases h with
    | binary o h₁ h₂ h₃ =>
      simp only [List.forall_mem_cons]
      exact ⟨Field.isSolid_word (by cases o <;> decide), h₁.isSolid, h₂.isSolid, h₃.isSolid, hnil⟩
    | unary o h₁ h₂ =>
      simp only [List.forall_mem_cons]
      exact ⟨Field.isSolid_word (by cases o <;> decide), h₁.isSolid, h₂.isSolid, hnil⟩
    | copy h =>
      exact List.forall_mem_cons.2 ⟨Field.isSolid_word (by decide), fun f hf => (h f hf).isSolid⟩
    | verify n h =>
      simp only [List.forall_mem_cons]
      exact ⟨Field.isSolid_word (by decide), h.isSolid, Field.isSolid_num _,
        Field.isSolid_num _, hnil⟩
    | param h =>
      simp only [List.forall_mem_cons]
      exact ⟨Field.isSolid_word (by decide), h.isSolid, Field.isSolid_num _, hnil⟩
    | special hs h =>
      refine List.forall_mem_cons.2 ⟨Field.isSolid_word ?_, fun f hf => (h f hf).isSolid⟩
      unfold Special.signature? at hs
      split at hs <;> first | decide | cases hs
    | endproc h =>
      simp only [List.forall_mem_cons]
      exact ⟨Field.isSolid_word (by decide), h, hnil⟩
    | goto => exact List.forall_mem_cons.2 ⟨Field.isSolid_word (by decide), hnums _⟩
    | gotof h =>
      exact List.forall_mem_cons.2
        ⟨Field.isSolid_word (by decide), List.forall_mem_cons.2 ⟨h.isSolid, hnums _⟩⟩

/-! ## Functions of a tree -/

theorem Event.isInner_of_isQuiet {e : Event} (h : e.isQuiet = true) : e.isInner = true := by
  cases e <;> first | rfl | cases h

theorem Expr.isInner (e : Expr) : ∀ ev ∈ e.events, ev.isInner = true :=
  fun ev hev => Event.isInner_of_isQuiet (e.quiet ev hev)

theorem Block.isInner (b : Block) : ∀ ev ∈ b.events, ev.isInner = true := by
  refine b.composed (P := fun es => ∀ ev ∈ es, ev.isInner = true)
    { nil := List.forall_mem_nil _
      append := fun hx hy => List.forall_mem_append.2 ⟨hx, hy⟩
      expr := Expr.isInner
      single := fun ev hev => List.forall_mem_singleton.2 ?_
      loop := fun condition _ h => ?_ }
  · cases ev <;> first | rfl | cases hev
  · simp only [List.forall_mem_cons, List.forall_mem_append]
    exact ⟨rfl, condition.isInner, rfl, h, rfl, rfl, List.forall_mem_nil _⟩

theorem sizesOf_isInner (gs : List Group) : ∀ ev ∈ sizesOf gs, ev.isInner = true :=
  fun ev hev => Event.isInner_of_isQuiet (quiet_sizesOf gs ev hev)

/-- The functions of a tree have words as names. -/
theorem Tree.isWord_of_mem {p : Tree} {result : Option Ty} {name : String}
    (h : .defineFunction result name ∈ p.events) : IsWord name := by
  have hinner : ∀ es : List Event, (∀ e ∈ es, e.isInner = true) →
      .defineFunction result name ∉ es := fun es hes hmem => by cases hes _ hmem
  have hfunctions : .defineFunction result name ∈ p.functions.flatMap FunctionTree.events := by
    have h₁ := hinner _ (sizesOf_isInner p.globals)
    have h₂ := hinner _ p.main.isInner
    simpa [Tree.events, h₁, h₂] using h
  obtain ⟨f, -, hf⟩ := List.mem_flatMap.1 hfunctions
  have h₁ := hinner _ (sizesOf_isInner f.vars)
  have h₂ := hinner _ f.body.isInner
  have hname : result = f.result ∧ name = f.name := by
    simpa [FunctionTree.events, FunctionTree.innerEvents, h₁, h₂] using hf
  rw [hname.2]
  exact f.isWord

open Compiler in
/-- The quads of an accepted program are read by the machine as they were written. -/
theorem Tree.code_ofText {p : Tree} {c : Compiler} (hr : TidyRuns p.events {} c)
    (hne : c.quads ≠ #[]) :
    (Program.ofText (Quad.program c.quads) c.functions).code = c.quads.map (·.map Field.text) := by
  have hnone : Scope.IsSolid none := Field.isSolid_word (w := "None") (by decide)
  obtain ⟨ss, bs, hss, -⟩ := hr.placed (placed_empty hnone) (by simp) hnone fun result name hmem =>
    (Tree.isWord_of_mem hmem).isSolid
  refine Program.code_ofText _ hne fun q hq => ?_
  obtain ⟨i, hi⟩ := Array.getElem?_of_mem hq
  exact (hss.quads i q hi).isSolid

end Symphony
