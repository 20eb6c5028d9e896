import Symphony.Proofs.Blocks
import Symphony.Proofs.Stacks

/-!
# Quads that write to variables

Most quads write to cells of their own or not at all. Copies, increments and decrements write to
cells that the program has names for, and an access to an array computes the address of one.

**Theorem (`Compiler.Acts.brings`).** A quad that an event adds is none of these, or it is one that
goes with the event (`Compiler.Brings`): an access goes with the use of an array element or the
assignment to one, a copy with an assignment or a call.
-/

namespace Symphony

variable {k : Nat} {v : Variable} {S : Nat → Sector → Prop} {a : Int} {c : Compiler} {e : Event}
  {log : History} {name : String} {q : Quad}

/-- Quads that start with this word neither access an array nor write to a variable. -/
def Quad.IsOrdinary (w : String) : Prop :=
  w ≠ "ACCESS" ∧ w ≠ "=" ∧ w ≠ "++" ∧ w ≠ "--"

instance (w : String) : Decidable (Quad.IsOrdinary w) :=
  inferInstanceAs (Decidable (_ ∧ _ ∧ _ ∧ _))

open Quad

namespace Compiler

variable {c' : Compiler}

/-- The check of an index and the access follow each other. -/
theorem quads_point (c : Compiler) (base n : Int) (t : Ty) (index : Field) :
    (c.point base n t index).quads[c.quads.size]? = some [.word "VER", index, .num 0, .num n] ∧
      (c.point base n t index).quads[c.quads.size + 1]? =
        some [.word "ACCESS", .num base, index, .num (c.next .temporals t)] := by
  simp only [point, emit, reserve, Array.getElem?_push, Array.size_push]
  simp

/-- The quads that an event adds. -/
inductive Brings (e : Event) (c c' : Compiler) : Nat → Quad → Prop
  /-- Checking an index and the access to an array that is named. -/
  | access {name : String} {v : Variable} {k : Kind} {n : Int} {t : Ty} {x : Field} :
      e = .useElement name ∨ e = .assign name → c.denoted? name = some v →
        v.elements = some (k, n) →
      k.ty? = some t → c'.quads[c.quads.size]? = some [.word "VER", x, .num 0, .num n] →
      Brings e c c' (c.quads.size + 1) [.word "ACCESS", .num v.address, x,
        .num (c.next .temporals t)]
  | assign {i : Nat} {name : String} {v : Variable} {x : Field} :
      e = .assign name → c.denoted? name = some v → v.kind.agrees .array = false →
      Brings e c c' i [.word "=", x, .num v.address]
  /-- The copy to an array element follows the access. -/
  | assignElement {name : String} {base x y : Field} {a : Int} :
      e = .assign name → c'.quads[c.quads.size + 1]? = some [.word "ACCESS", base, y, .num a] →
      Brings e c c' (c.quads.size + 2) [.word "=", x, .pointer a]
  /-- Increment or decrement of the operand on top of the stack. -/
  | update {o : UnOp} {x : Operand} {rest : List Operand} {t : Ty} :
      e = .unary o → o.updatesOperand = true → c.operands = x :: rest → x.kind.row? = some t →
      Brings e c c' c.quads.size [.word o.mnemonic, x.place, x.place]
  /-- The result of a call goes to a new cell. -/
  | result {i : Nat} {s : Sector} {t : Ty} {x : Field} :
      s = variableSector (c.scope == none) → c.next s t < c'.next s t →
      Brings e c c' i [.word "=", x, .num (c.next s t)]
  | selfResult {i : Nat} : Brings e c c' i [.word "="]
  | ordinary {i : Nat} {w : String} {fs : List Field} :
      IsOrdinary w → (∀ x a, fs ≠ [x, .pointer a]) → Brings e c c' i (.word w :: fs)

/-! ## Ordinary quads -/

/-- Events that neither assign nor use an element nor update their operand add ordinary quads and
results of calls. -/
theorem Emitted.brings (h : Emitted e c c' q) (helement : ∀ name, e ≠ .useElement name)
    (hassign : ∀ name, e ≠ .assign name) (hupdate : ∀ o, e = .unary o → o.updatesOperand = false) :
    Brings e c c' k q := by
  cases h with
  | binary o => exact .ordinary (by cases o <;> decide) (by simp)
  | @unary o _ _ ho =>
    refine .ordinary ?_ (by simp)
    cases o with
    | increment | decrement => cases ho
    | plus | minus | not => decide
  | update _ he ho => simp [hupdate _ he] at ho
  | access _ _ he => exact (he.elim (helement _) (hassign _)).elim
  | assign _ _ he => exact absurd he (hassign _)
  | verify | param | call => exact .ordinary (by decide) (by simp)
  | result _ hs hnext => exact .result hs hnext
  | selfResult => exact .selfResult
  | special as hs =>
    refine .ordinary (by refine ⟨?_, ?_, ?_, ?_⟩ <;> (rintro rfl; simp [Special.signature?] at hs))
      fun x a hfs => ?_
    have hmem : Field.pointer a ∈ as.map Field.num := by simp [hfs]
    simp at hmem

/-! ## Events -/

/-- Events that check an index and compute the address of an element. -/
theorem brings_point {l : Kind} {n : Int} {t : Ty} {index : Field} {d d' : Compiler}
    (he : e = .useElement name ∨ e = .assign name) (hv : d.denoted? name = some v)
    (hn : v.elements = some (l, n)) (ht : l.ty? = some t) (hquads : c.quads = d.quads)
    (hnext : c.next .temporals t = d.next .temporals t)
    (hver : d'.quads[d.quads.size]? = some [.word "VER", index, .num 0, .num n])
    (hk : d.quads.size ≤ k) (hq : (c.point v.address n t index).quads[k]? = some q) :
    Brings e d d' k q := by
  rw [← hquads] at hk
  rcases getElem?_of_emit hq with hq | ⟨rfl, rfl⟩
  · rw [eq_of_getElem?_push hk hq]
    exact .ordinary (by decide) (by simp)
  · rw [hnext, show ((c.emit [.word "VER", index, .num 0, .num n]).reserve .temporals t
      1).quads.size = d.quads.size + 1 by simp [emit, reserve, hquads]]
    exact .access he hv hn ht hver

/-- The quads that an event adds go with it. -/
theorem Acts.brings (ha : Acts e c c') (hk : c.quads.size ≤ k) (hq : c'.quads[k]? = some q) :
    Brings e c c' k q := by
  have hlt := (Array.getElem?_eq_some_iff.1 hq).1
  by_cases he : e.isQuiet = true
  swap
  · obtain ⟨q₀, fs, hmarks, rfl, hnum⟩ := ha.exists_marks he hk hq
    have hfs : ∀ a, .pointer a ∉ fs := fun a ha => by simpa using hnum _ ha
    cases hmarks <;>
      exact .ordinary (by decide) fun x a heq => hfs a (by simp at heq; simp [heq])
  have hemitted := (ha.emitted he).of_getElem? hk hq
  cases ha with
  | oldConstant | newConstant | dropSize | useVariable | selectElement | chain | beginCall
  | beginSpecial | argument =>
    exact absurd hlt (Nat.not_lt_of_le hk)
  | @useElement _ _ index rest v _ n t _ _ hv hn ht =>
    refine brings_point (.inl rfl) hv hn ht rfl rfl ?_ hk hq
    exact (quads_point { c with operands := rest } v.address n t index.place).1
  | @assignElement _ _ v index _ rest _ n t hv _ _ hn ht =>
    obtain ⟨hver, haccess⟩ := quads_point { c with operands := rest, offset := none } v.address n t
      index.place
    rcases getElem?_of_emit hq with hq | ⟨rfl, rfl⟩
    · exact brings_point (.inr rfl) hv hn ht rfl rfl (getElem?_of_append Array.toList_push hver) hk
        hq
    · have hsize : ({ c with operands := rest, offset := none }.point v.address n t
          index.place).quads.size = c.quads.size + 2 := by simp [point, emit, reserve]
      rw [hsize]
      exact .assignElement rfl (getElem?_of_append Array.toList_push haccess)
  | assignVariable hv _ hscalar =>
    rw [eq_of_getElem?_push hk hq]
    exact .assign rfl hv hscalar
  | update hx ht _ ho =>
    rw [eq_of_getElem?_push hk hq]
    obtain rfl : k = c.quads.size :=
      Nat.le_antisymm (Nat.le_of_lt_succ (by simpa [push, emit] using hlt)) hk
    exact .update rfl ho hx ht
  | unary _ _ _ ho =>
    exact hemitted.brings (by simp) (by simp) fun o he => Event.unary.inj he ▸ ho
  | power | fold | callVoid | callKnown | callSelf | specialVoid | specialValue =>
    exact hemitted.brings (by simp) (by simp) (by simp)
  | _ => cases he

end Compiler

/-! ## Updates -/

/-- Events that put a variable or an array element on the stack. -/
def Event.isUse : Event → Bool
  | .useVariable _ | .useElement _ => true
  | _ => false

/-- Operators that write their result back come right after the use of a variable or of an array
element. -/
def Event.Marked (es : List Event) : Prop :=
  ∀ xs o ys, es = xs ++ .unary o :: ys → o.updatesOperand = true → ∃ zs e, xs = zs ++ [e] ∧
    e.isUse = true

namespace Event

variable {xs ys : List Event}

theorem Marked.append (hx : Marked xs) (hy : Marked ys) : Marked (xs ++ ys) := by
  intro zs o ws hsplit ho
  rcases split_append hsplit with ⟨vs, hxs, -⟩ | ⟨vs, rfl, hys⟩
  · exact hx zs o vs hxs ho
  · obtain ⟨us, e, rfl, he⟩ := hy vs o ws hys ho
    exact ⟨xs ++ us, e, by rw [List.append_assoc], he⟩

theorem marked_of_forall (h : ∀ e ∈ xs, ∀ o, e = .unary o → o.updatesOperand = false) :
    Marked xs := by
  intro zs o ws hsplit ho
  rw [h (.unary o) (by simp [hsplit]) o rfl] at ho
  cases ho

theorem marked_nil : Marked [] :=
  marked_of_forall (List.forall_mem_nil _)

theorem marked_singleton (h : ∀ o, e = .unary o → o.updatesOperand = false) : Marked [e] :=
  marked_of_forall (List.forall_mem_singleton.2 h)

theorem Marked.cons (hx : Marked xs) (h : ∀ o, e = .unary o → o.updatesOperand = false) :
    Marked (e :: xs) :=
  (marked_singleton h).append hx

theorem Marked.snoc (hx : Marked xs) (h : ∀ o, e = .unary o → o.updatesOperand = false) :
    Marked (xs ++ [e]) :=
  hx.append (marked_singleton h)

/-- The operator of an update follows the use that it updates. -/
theorem Marked.update (hx : Marked (xs ++ [e])) (he : e.isUse = true) (o : UnOp) :
    Marked (xs ++ [e] ++ [.unary o]) := by
  intro zs o' ws hsplit ho
  rcases split_append hsplit with ⟨vs, hxs, -⟩ | ⟨vs, rfl, hys⟩
  · exact hx zs o' vs hxs ho
  · cases vs with
    | nil => exact ⟨xs, e, by simp, he⟩
    | cons v vs => simp at hys

theorem Marked.call {first last : Event} (hx : Marked xs) (n : Nat)
    (hfirst : ∀ o, first = .unary o → o.updatesOperand = false)
    (hlast : ∀ o, last = .unary o → o.updatesOperand = false) :
    Marked (first :: (xs ++ List.replicate n .argument) ++ [last]) := by
  refine ((hx.append (marked_of_forall fun e he => ?_)).cons hfirst).snoc hlast
  rw [List.eq_of_mem_replicate he]
  simp

end Event

open Event

theorem Links.marked_operators (l : Links) : Marked l.operators := by
  refine marked_of_forall fun e he => ?_
  obtain ⟨o, rfl⟩ := eq_chain_of_mem l he
  simp

theorem Expr.marked (e : Expr) : Marked e.events :=
  e.composed
    { nil := marked_nil
      append := .append
      single := fun e he => marked_singleton (by rintro o rfl; cases he)
      sign := fun o => marked_singleton (by cases o <;> simp [Sign.op, UnOp.updatesOperand])
      update := fun u t h => by
        cases t with
        | «variable» => exact (show Marked ([] ++ [_]) from h).update rfl u.op
        | element => exact h.update rfl u.op
      chain := fun l _ => l.marked_operators.snoc (by simp)
      call := fun _ n _ h => h.call n (by simp) (by simp)
      special := fun _ n _ h => h.call n (by simp) (by simp) }

theorem marked_sizesOf (gs : List Group) : Marked (sizesOf gs) := by
  refine marked_of_forall fun e he => ?_
  obtain ⟨g, -, he⟩ := List.mem_flatMap.1 he
  rcases Compiler.mem_sizes he with rfl | ⟨t, v, rfl⟩ <;> simp

/-- Only variables and array elements are updated. -/
theorem Tree.marked (p : Tree) : Marked p.events :=
  p.composed
    { nil := marked_nil
      append := .append
      expr := Expr.marked
      single := fun e he => marked_singleton (by rintro o rfl; cases he)
      loop := fun condition _ h => by
        have hend : Marked [.closeLoop, .leaveLoop] := marked_of_forall (by simp)
        exact (condition.marked.append ((h.append hend).cons (by simp))).cons (by simp) }
    marked_sizesOf fun e he => marked_singleton (by rintro o rfl; cases he)

/-! ## Where variables are written -/

/-- An address in one of the sectors of variables. -/
def Sector.OfVariables (a : Int) : Prop :=
  ∃ s t, locate? a = some (s, t) ∧ (s = .globals ∨ s = .locals)

namespace Compiler

theorem variableSector_cases (isGlobal : Bool) :
    variableSector isGlobal = .globals ∨ variableSector isGlobal = .locals := by
  cases isGlobal
  · exact .inr rfl
  · exact .inl rfl

/-- An array is named in an expression or by an assignment, and the quad at an index is the access
to it. -/
def Accessed (xs : List Event) (k : Nat) (v : Variable) (n : Int) : Prop :=
  ∃ before e later c name d, xs = before ++ e :: later ∧ Runs before {} c ∧
    (e = .useElement name ∨ e = .assign name) ∧ c.denoted? name = some v ∧
      v.elements = some (d, n) ∧
    k = c.quads.size + 1

/-- After some events, accesses are to arrays that the source names, and copies, increments and
decrements are of variables. What was used last can be updated. -/
structure Directs (xs : List Event) (c : Compiler) : Prop where
  runs : Runs xs {} c
  accesses : ∀ {k : Nat} {fs : List Field}, c.quads[k]? = some (.word "ACCESS" :: fs) →
    ∃ l v n x a, k = l + 1 ∧ fs = [.num v.address, x, .num a] ∧
      c.quads[l]? = some [.word "VER", x, .num 0, .num n] ∧ Accessed xs k v n ∧
      ∀ b, v.address ≤ b → b < v.address + n → Sector.OfVariables b
  copies : ∀ {k : Nat} {x : Field} {a : Int}, c.quads[k]? = some [.word "=", x, .num a] →
    (∀ y ∈ c.selfCalls, y.1 ≠ k) → Sector.OfVariables a
  selfCalls : ∀ y ∈ c.selfCalls, Sector.OfVariables y.2
  updates : ∀ {k : Nat} {o : UnOp} {x : Field} {a : Int}, o.updatesOperand = true →
    c.quads[k]? = some [.word o.mnemonic, x, .num a] → Sector.OfVariables a
  used : ∀ ys e, xs = ys ++ [e] → e.isUse = true → ∀ x rest t a, c.operands = x :: rest →
    x.kind.row? = some t → x.place = .num a → Sector.OfVariables a

variable {c' : Compiler} {p p' : Position} {xs : List Event}

theorem Accessed.append {n : Int} (h : Accessed xs k v n) (ys : List Event) :
    Accessed (xs ++ ys) k v n := by
  obtain ⟨before, e, later, c, name, d, rfl, hrest⟩ := h
  exact ⟨before, e, later ++ ys, c, name, d, by simp, hrest⟩

/-- The cells of a variable that a name denotes. -/
theorem Accounts.ofVariables (h : Accounts S log c) (hr : Roomy (log.map Prod.snd))
    (hv : c.denoted? name = some v) {b : Int} (hlo : v.address ≤ b) (hhi : b < v.address + v.size) :
    Sector.OfVariables b := by
  obtain ⟨s, f, hf, hmem⟩ := function_of_denoted? hv
  obtain ⟨t, -, hlog⟩ := h.declared hf hmem
  exact ⟨_, t, hlog.locate hr (AddressBlock.mem_cells.2 ⟨hlo, hhi⟩), variableSector_cases _⟩

theorem Accounts.roomy (h : Accounts S log c) (hfits : c.Fits) : Roomy (log.map Prod.snd) := by
  refine ⟨fun r hr => ?_, fun s t => ?_⟩
  · obtain ⟨x, hx, rfl⟩ := List.mem_map.1 hr
    exact h.sizes x hx
  · have := hfits s t
    rwa [h.counters] at this

theorem Takes.fits_before (h : Takes e p c p' c') : c.Fits := by
  obtain ⟨rs, ss, hc, hc'⟩ := h.reached
  exact hc.fits hc' h.fits

/-- What is no array is one cell. -/
theorem size_of_ne_array {N : Scope → Prop} {rs : List Reservation} {bs : List Int}
    (hp : Placed N rs bs c) (hv : c.denoted? name = some v) (hscalar : v.kind ≠ .array) :
    v.size = 1 := by
  have hgiven := hp.denoted hv
  rw [Variable.IsGiven] at hgiven
  rw [Variable.size]
  split
  case h_1 => rfl
  case h_2 k n hn =>
    rw [hn] at hgiven
    exact absurd hgiven.1 hscalar

/-- A copy that is not that of a call of a function by itself is what it was. -/
theorem Takes.copy_before (h : Takes e p c p' c') {fs : List Field} (hk : k < c.quads.size)
    (hq : c'.quads[k]? = some (.word "=" :: fs)) (hne : ∀ y ∈ c.selfCalls, y.1 ≠ k) :
    c.quads[k]? = some (.word "=" :: fs) := by
  obtain ⟨rs, bs, hp, -⟩ := h.placed
  have hold := Array.getElem?_eq_getElem hk
  obtain ⟨w, gs, hw⟩ := (hp.quads k _ hold).exists_word
  rw [hw] at hold
  obtain ⟨more, hgrown⟩ := h.acts.grown hold
  rw [hq] at hgrown
  obtain ⟨hword, -⟩ := List.cons.inj (Option.some.inj hgrown)
  cases hword
  have hkept := h.acts.kept h.tidy hold (by simp [Quad.Waits]) fun _ => hne
  exact hold.trans (hkept.symm.trans hq)

namespace Directs

theorem accesses_step (h : Directs xs c) (htakes : Takes e p c p' c') (hacc : Accounts S log c)
    {fs : List Field} (hq : c'.quads[k]? = some (.word "ACCESS" :: fs)) :
    ∃ l v n x a, k = l + 1 ∧ fs = [.num v.address, x, .num a] ∧
      c'.quads[l]? = some [.word "VER", x, .num 0, .num n] ∧ Accessed (xs ++ [e]) k v n ∧
      ∀ b, v.address ≤ b → b < v.address + n → Sector.OfVariables b := by
  have hruns : TidyRuns [e] c c' := runs_singleton.2 ⟨htakes.acts, htakes.tidy⟩
  rcases Nat.lt_or_ge k c.quads.size with hk | hk
  · obtain ⟨rs, bs, hp, -⟩ := htakes.placed
    obtain ⟨l, v, n, x, a, rfl, rfl, hver, haccessed, hcells⟩ :=
      h.accesses (hruns.quad_before hp (by decide) hk hq)
    exact ⟨l, v, n, x, a, rfl, rfl, hruns.kept (by decide) hver, haccessed.append _, hcells⟩
  · generalize hq' : Field.word "ACCESS" :: fs = q at hq
    cases htakes.acts.brings hk hq with
    | @access name v d n t x he hv hn ht hver =>
      cases hq'
      refine ⟨c.quads.size, v, n, x, _, rfl, rfl, hver,
        ⟨xs, e, [], c, name, d, rfl, h.runs, he, hv, hn, rfl⟩, ?_⟩
      have hsize : v.size = n := by rw [Variable.size, hn]
      exact fun b hlo hhi => hacc.ofVariables (hacc.roomy htakes.fits_before) hv hlo (by omega)
    | @update o => cases o <;> simp [UnOp.mnemonic] at hq'
    | ordinary hw =>
      cases hq'
      exact absurd rfl hw.1
    | _ => simp at hq'

theorem copies_step (h : Directs xs c) (htakes : Takes e p c p' c') (hacc : Accounts S log c)
    {x : Field} (hq : c'.quads[k]? = some [.word "=", x, .num a])
    (hne : ∀ y ∈ c'.selfCalls, y.1 ≠ k) : Sector.OfVariables a := by
  have hruns : TidyRuns [e] c c' := runs_singleton.2 ⟨htakes.acts, htakes.tidy⟩
  have hne' : ∀ y ∈ c.selfCalls, y.1 ≠ k := fun y hy => hne y (Phase.mem_selfCalls hruns hy)
  rcases Nat.lt_or_ge k c.quads.size with hk | hk
  · exact h.copies (htakes.copy_before hk hq hne') hne'
  · generalize hq' : [Field.word "=", x, .num a] = q at hq
    cases htakes.acts.brings hk hq with
    | @assign _ name v y he hv hscalar =>
      obtain ⟨rs, bs, hp, -⟩ := htakes.placed
      have hsize : v.size = 1 := size_of_ne_array hp hv fun hkind => by
        rw [hkind] at hscalar
        cases hscalar
      obtain ⟨rfl, rfl⟩ : x = y ∧ a = v.address := by simpa using hq'
      exact hacc.ofVariables (hacc.roomy htakes.fits_before) hv (Int.le_refl _) (by omega)
    | @result _ s t y hs hnext =>
      obtain ⟨rfl, rfl⟩ : x = y ∧ a = c.next s t := by simpa using hq'
      exact ⟨s, t, htakes.locate (Int.le_refl _) hnext, hs ▸ variableSector_cases _⟩
    | @update o => cases o <;> simp [UnOp.mnemonic] at hq'
    | ordinary hw =>
      cases hq'
      exact absurd rfl hw.2.1
    | _ => simp at hq'

theorem selfCalls_step (h : Directs xs c) (htakes : Takes e p c p' c') :
    ∀ y ∈ c'.selfCalls, Sector.OfVariables y.2 := by
  intro y hy
  rcases htakes.acts.mem_selfCalls hy with hy | ⟨_, _, _, t, -, -, -, -, hnext, hlt, -⟩
  · exact h.selfCalls y hy
  · exact ⟨_, t, htakes.locate (Int.le_of_eq hnext.symm) hlt, variableSector_cases _⟩

theorem updates_step (h : Directs xs c) (htakes : Takes e p c p' c')
    (hmarked : ∀ o, e = .unary o → o.updatesOperand = true → ∃ zs e', xs = zs ++ [e'] ∧
      e'.isUse = true)
    {o : UnOp} {x : Field} (ho : o.updatesOperand = true)
    (hq : c'.quads[k]? = some [.word o.mnemonic, x, .num a]) : Sector.OfVariables a := by
  have hruns : TidyRuns [e] c c' := runs_singleton.2 ⟨htakes.acts, htakes.tidy⟩
  have hword : IsFinal o.mnemonic ∧ ¬Quad.IsOrdinary o.mnemonic ∧ o.mnemonic ≠ "=" ∧
      o.mnemonic ≠ "ACCESS" := by
    cases o with
    | increment | decrement => decide
    | plus | minus | not => cases ho
  rcases Nat.lt_or_ge k c.quads.size with hk | hk
  · obtain ⟨rs, bs, hp, -⟩ := htakes.placed
    exact h.updates ho (hruns.quad_before hp hword.1 hk hq)
  · generalize hq' : [Field.word o.mnemonic, x, .num a] = q at hq
    cases htakes.acts.brings hk hq with
    | @update o' y rest t he ho' hy ht =>
      obtain ⟨zs, e', hxs, he'⟩ := hmarked o' he ho'
      have hplace : y.place = .num a := by
        have := (List.cons.inj (List.cons.inj hq').2).2
        simpa using this.symm
      exact h.used zs e' hxs he' y rest t a hy ht hplace
    | ordinary hw => exact absurd ((Field.word.inj (List.cons.inj hq').1) ▸ hw) hword.2.1
    | access => exact absurd (Field.word.inj (List.cons.inj hq').1) hword.2.2.2
    | _ => exact absurd (Field.word.inj (List.cons.inj hq').1) hword.2.2.1

theorem used_step (htakes : Takes e p c p' c') (hacc : Accounts S log c) (he : e.isUse = true)
    {x : Operand} {rest : List Operand} {t : Ty} (hx : c'.operands = x :: rest)
    (ht : x.kind.row? = some t) (ha : x.place = .num a) : Sector.OfVariables a := by
  have hroomy := hacc.roomy htakes.fits_before
  obtain ⟨rs, bs, hp, -⟩ := htakes.placed
  cases htakes.acts with
  | @useVariable _ name v hv =>
    obtain ⟨rfl, -⟩ := List.cons.inj hx
    cases ha
    have hsize : v.size = 1 := size_of_ne_array hp hv fun hkind => by
      rw [hkind] at ht
      cases ht
    exact hacc.ofVariables hroomy hv (Int.le_refl _) (by omega)
  | useElement =>
    obtain ⟨rfl, -⟩ := List.cons.inj hx
    cases ha
  | _ => cases he

theorem step (h : Directs xs c) (htakes : Takes e p c p' c') (hacc : Accounts S log c)
    (hmarked : ∀ o, e = .unary o → o.updatesOperand = true → ∃ zs e', xs = zs ++ [e'] ∧
      e'.isUse = true) :
    Directs (xs ++ [e]) c' where
  runs := runs_append.2 ⟨c, h.runs, runs_singleton.2 htakes.acts⟩
  accesses := h.accesses_step htakes hacc
  copies := h.copies_step htakes hacc
  selfCalls := h.selfCalls_step htakes
  updates := h.updates_step htakes hmarked
  used ys e' hsplit he x rest t a hx ht ha := by
    obtain ⟨-, hlast⟩ := List.append_inj' hsplit rfl
    obtain rfl := (List.cons.inj hlast).1
    exact used_step htakes hacc he hx ht ha

theorem empty : Directs [] {} where
  runs := .nil _
  accesses hq := by simp at hq
  copies hq := by simp at hq
  selfCalls := List.forall_mem_nil _
  updates _ hq := by simp at hq
  used ys e h := by simp at h

end Directs

end Compiler

open Compiler

/-- The code of a program writes to variables where the source does. -/
theorem Tree.directs {p : Tree} (hr : TidyRuns p.events {} c)
    (hpos : Event.Sized p.events) (hfits : c.Fits) : Directs p.events c := by
  -- the events so far begin those of the tree, where updates follow uses
  let I (xs : List Event) (q : Position) (d : Compiler) : Prop :=
    (∃ log, Accounts (d.CallSector q) log d) ∧ ∀ zs, p.events = xs ++ zs → Directs xs d
  have hstart : I [] .start {} := ⟨⟨[], accounts_empty _⟩, fun _ _ => .empty⟩
  have hend : I p.events .done c := by
    refine Tree.invariant hr hpos hfits hstart ?_
    rintro xs e q q' d d' he htakes ⟨⟨log, hacc⟩, hdirects⟩
    obtain ⟨more, hacc'⟩ := htakes.accounts (hpos e he) hacc
    refine ⟨⟨log ++ more, hacc'⟩, fun zs hzs => ?_⟩
    have hsplit : p.events = xs ++ e :: zs := by rw [hzs, List.append_assoc, List.singleton_append]
    refine (hdirects (e :: zs) hsplit).step htakes hacc fun o ho hupdates => ?_
    subst ho
    exact p.marked xs o zs hsplit hupdates
  exact hend.2 [] (List.append_nil _).symm

end Symphony
