import Mathlib.Data.List.Forall2
import Symphony.Proofs.Order

/-!
# Types of operands

The type of a cell is told by its address alone (`Field.IsOf`). As long as no region is used up, the
compiler puts every value where its type says, so in all quads the operands fit the operation
(`Quad.Typed`).

Arguments are handed over one by one, right before the call that takes them. `Quad.passed` are those
that have been handed over at an index: what a call finds there fits its parameters, and other quads
find nothing. Nor does a run that comes to an index by a jump (`Quad.Clear`). How emitted code keeps
a demand of this kind is the same for all of them (`Quad.Demand.Throughout`).

**Theorem (`Takes.typed`).** Every event keeps the code typed.
-/

namespace Symphony

variable {rs : List Reservation} {l o : Operand} {t : Ty} {N : Scope → Prop} {bs : List Int}
  {name w : String} {f : Field} {fs : List Field}

namespace Field

/-- The type of the cell that an operand stands for. -/
def IsOf (t : Ty) : Field → Prop
  | num a => ∃ s, Sector.locate? a = some (s, t)
  | pointer a => Sector.locate? a = some (.temporals, t)
  | word _ => False

theorem IsOf.unique {u : Ty} (h : f.IsOf t) (h' : f.IsOf u) : t = u := by
  cases f with
  | num a =>
    obtain ⟨s, hs⟩ := h
    obtain ⟨r, hr⟩ := h'
    exact (Prod.mk.inj (Option.some.inj (hs.symm.trans hr))).2
  | pointer a => exact (Prod.mk.inj (Option.some.inj (Eq.trans (Eq.symm h) h'))).2
  | word w => exact h.elim

end Field

/-- Cells that were handed out are where their type says. -/
theorem Given.isOf (h : Given rs t f) (hr : Roomy rs) : f.IsOf t := by
  cases h with
  | @num before later s t h => exact Given.locate (.num h) hr
  | pointer h =>
    subst h
    exact hr.locate (Int.le_refl _) (Int.lt_succ _)

theorem Given.of_isOf (h : Stored rs f) (hr : Roomy rs) (ht : f.IsOf t) : Given rs t f := by
  obtain ⟨u, hu⟩ := h
  rwa [ht.unique (hu.isOf hr)]

/-- An operand stands where its type says. -/
def Operand.IsTyped (o : Operand) : Prop :=
  ∀ t, o.kind.row? = some t → o.place.IsOf t

theorem Operand.IsGiven.isTyped (h : o.IsGiven rs) (hr : Roomy rs) : o.IsTyped :=
  fun _ ht => (h.of_row? ht).isOf hr

theorem Operand.IsTyped.of_agrees (h : o.IsTyped) {k : Kind} (hk : o.kind.agrees k = true)
    (ht : k.ty? = some t) : o.place.IsOf t :=
  h t (Kind.row?_of_ty? ((Kind.ty?_eq_of_agrees hk).trans ht))

namespace Quad

/-! ## Arguments -/

/-- The operand that a quad hands over. -/
def passes? : Quad → Option Field
  | [.word w, x, _] => if w = "PARAM" then some x else none
  | _ => none

/-- The operands that have been handed over right before an index, last one first. -/
def passed (qs : Array Quad) : Nat → List Field
  | 0 => []
  | k + 1 =>
    match qs[k]?.bind passes? with
    | some x => x :: passed qs k
    | none => []

/-- An index before which nothing has been handed over. -/
def Clear (qs : Array Quad) (t : Int) : Prop :=
  ∃ b : Nat, t = b ∧ b ≤ qs.size ∧ passed qs b = []

variable {qs qs' : Array Quad} {q : Quad} {i k : Nat}

theorem passes?_eq_none (h : w ≠ "PARAM") (fs : List Field) : passes? (.word w :: fs) = none := by
  match fs with
  | [] | [_] | _ :: _ :: _ :: _ => rfl
  | [_, _] => simp [passes?, h]

theorem passed_congr (h : ∀ i < k, qs'[i]?.bind passes? = qs[i]?.bind passes?) :
    passed qs' k = passed qs k := by
  induction k with
  | zero => rfl
  | succ k ih =>
    rw [passed, passed, h k (Nat.lt_succ_self k), ih fun i hi => h i (Nat.lt_succ_of_lt hi)]

theorem passed_push (q : Quad) (h : k ≤ qs.size) : passed (qs.push q) k = passed qs k :=
  passed_congr fun i hi => by
    rw [Array.getElem?_push_lt (Nat.lt_of_lt_of_le hi h), Array.getElem?_eq_getElem]

theorem passed_size_push (qs : Array Quad) (q : Quad) :
    passed (qs.push q) (qs.push q).size = (q.passes?).elim [] (· :: passed qs qs.size) := by
  rw [Array.size_push, passed, Array.getElem?_push_size, Option.bind_some,
    passed_push q (Nat.le_refl _)]
  cases q.passes? <;> rfl

theorem Clear.push {t : Int} (h : Clear qs t) (q : Quad) : Clear (qs.push q) t := by
  obtain ⟨b, rfl, hb, hnil⟩ := h
  exact ⟨b, rfl, by rw [Array.size_push]; omega, by rw [passed_push q hb, hnil]⟩

/-- Quads may change as long as they hand over the same operands. -/
theorem passed_of_completed (hsize : qs'.size = qs.size)
    (hnew : ∀ (i : Nat) (q : Quad), qs[i]? = some q → ∃ q', qs'[i]? = some q' ∧
      q'.passes? = q.passes?)
    (k : Nat) : passed qs' k = passed qs k := by
  refine passed_congr fun i _ => ?_
  cases hq : qs[i]? with
  | none =>
    rw [Array.getElem?_eq_none_iff] at hq
    rw [Array.getElem?_eq_none (by omega)]
  | some q =>
    obtain ⟨q', hq', hsame⟩ := hnew i q hq
    rw [hq', Option.bind_some, Option.bind_some, hsame]

theorem Clear.congr {t : Int} (h : Clear qs t) (hsize : qs'.size = qs.size)
    (hpassed : ∀ k, passed qs' k = passed qs k) : Clear qs' t := by
  obtain ⟨b, rfl, hb, hnil⟩ := h
  exact ⟨b, rfl, by omega, by rw [hpassed, hnil]⟩

/-! ## Code -/

/-- A demand on quads, in view of the indices that may be jumped to and of the operands that have
been handed over. It does not mind further indices. -/
structure Demand where
  holds : (Int → Prop) → List Field → Quad → Prop
  mono {T T' : Int → Prop} {args : List Field} {q : Quad} :
    holds T args q → (∀ t, T t → T' t) → holds T' args q

/-- All quads of a program so far meet a demand, some operands have been handed over at its end, and
nothing at its entries or where a quad may jump. -/
structure Demand.Throughout (D : Demand) (args : List Field) (qs : Array Quad) (es : List Int) :
    Prop where
  quads : ∀ (i : Nat) (q : Quad), qs[i]? = some q → D.holds (Clear qs) (passed qs i) q
  last : passed qs qs.size = args
  entries : ∀ b ∈ es, Clear qs b

namespace Demand.Throughout

variable {D : Demand} {args : List Field} {es : List Int}

theorem size (h : D.Throughout [] qs es) : Clear qs qs.size :=
  ⟨qs.size, rfl, Nat.le_refl _, h.last⟩

theorem push (h : D.Throughout args qs es) (hq : D.holds (Clear qs) args q) :
    D.Throughout (q.passes?.elim [] (· :: args)) (qs.push q) es := by
  refine ⟨fun i q' hq' => ?_, by rw [passed_size_push, h.last],
    fun b hb => (h.entries b hb).push q⟩
  refine D.mono ?_ fun t (ht : Clear qs t) => ht.push q
  rw [Array.getElem?_push] at hq'
  split at hq'
  case isTrue hi =>
    obtain rfl := Option.some.inj hq'
    rw [hi, passed_push q (Nat.le_refl _), h.last]
    exact hq
  case isFalse hi =>
    rw [passed_push q (Nat.le_of_lt (Array.getElem?_eq_some_iff.1 hq').1)]
    exact h.quads i q' hq'

/-- A quad other than one that hands over an operand. -/
theorem push_word (h : D.Throughout args qs es) (hq : D.holds (Clear qs) args (.word w :: fs))
    (hw : w ≠ "PARAM") : D.Throughout [] (qs.push (.word w :: fs)) es := by
  have := h.push hq
  rwa [passes?_eq_none hw] at this

theorem passing {xs : List Operand} (h : D.Throughout args qs es)
    (hxs : ∀ x ∈ xs, ∀ T args n, D.holds T args [.word "PARAM", x.place, n]) (i : Nat) :
    D.Throughout ((xs.map Operand.place).reverse ++ args) (qs ++ Compiler.passing i xs) es := by
  induction xs generalizing i qs args with
  | nil => simpa [Compiler.passing] using h
  | cons x xs ih =>
    obtain ⟨hx, hxs⟩ := List.forall_mem_cons.1 hxs
    simpa [Compiler.passing, passes?] using ih (h.push (hx _ args (.num i))) hxs (i + 1)

/-- Operands are handed over to the quad that takes them. -/
theorem call {xs : List Operand} (h : D.Throughout [] qs es)
    (hxs : ∀ x ∈ xs, ∀ T args n, D.holds T args [.word "PARAM", x.place, n]) (hw : w ≠ "PARAM")
    (hq : ∀ T, D.holds T (xs.map Operand.place).reverse (.word w :: fs)) :
    D.Throughout [] ((qs ++ Compiler.passing 1 xs).push (.word w :: fs)) es := by
  have hpassed := h.passing hxs 1
  rw [List.append_nil] at hpassed
  exact hpassed.push_word (hq _) hw

/-- The next index becomes an entry. -/
theorem mark (h : D.Throughout [] qs es) : D.Throughout [] qs ((qs.size : Int) :: es) :=
  ⟨h.quads, h.last, List.forall_mem_cons.2 ⟨h.size, h.entries⟩⟩

theorem subset (h : D.Throughout args qs es) {es' : List Int} (hes : ∀ b ∈ es', b ∈ es) :
    D.Throughout args qs es' :=
  ⟨h.quads, h.last, fun b hb => h.entries b (hes b hb)⟩

/-- Quads get more fields, but none that hands over an operand. -/
theorem completed (h : D.Throughout args qs es) (hsize : qs'.size = qs.size)
    (hnew : ∀ (i : Nat) (q : Quad), qs[i]? = some q → ∃ q', qs'[i]? = some q' ∧ (q' = q ∨
      q.passes? = none ∧ q'.passes? = none ∧ D.holds (Clear qs) (passed qs i) q')) :
    D.Throughout args qs' es := by
  have hpassed := passed_of_completed hsize fun i q hq => by
    obtain ⟨q', hq', rfl | ⟨hnone, hnone', -⟩⟩ := hnew i q hq
    exacts [⟨_, hq', rfl⟩, ⟨q', hq', hnone'.trans hnone.symm⟩]
  have hclear : ∀ t, Clear qs t → Clear qs' t := fun _ ht => ht.congr hsize hpassed
  refine ⟨fun i q' hq' => ?_, by rw [hsize, hpassed, h.last], fun b hb => hclear b (h.entries b hb)⟩
  have hi : i < qs.size := hsize ▸ (Array.getElem?_eq_some_iff.1 hq').1
  obtain ⟨q, hq⟩ : ∃ q, qs[i]? = some q := ⟨_, Array.getElem?_eq_getElem hi⟩
  obtain ⟨q'', hq'', hcases⟩ := hnew i q hq
  obtain rfl : q'' = q' := Option.some.inj (hq''.symm.trans hq')
  rw [hpassed]
  refine D.mono ?_ hclear
  rcases hcases with rfl | ⟨-, -, hgrown⟩
  · exact h.quads i _ hq
  · exact hgrown

end Demand.Throughout

/-! ## Quads -/

/-- The operands of a quad fit its operation, given the operands that have been handed over.
Functions have parameters of the given kinds, and jumps go to the given indices. -/
inductive Typed (K : String → List Kind → Prop) (T : Int → Prop) : List Field → Quad → Prop
  | binary (o : BinOp) {l r : Field} {d : Int} {lt rt t : Ty} :
      l.IsOf lt → r.IsOf rt → o.result? lt rt = some t → (Field.num d).IsOf t →
      Typed K T [] [.word o.symbol, l, r, .num d]
  | unary (o : UnOp) {x d : Field} {t u : Ty} :
      x.IsOf t → o.result? t = some u → d.IsOf u → Typed K T [] [.word o.mnemonic, x, d]
  | copy {fs : List Field} :
      (∀ x d, fs = [x, d] → ∃ t, x.IsOf t ∧ d.IsOf t) → Typed K T [] (.word "=" :: fs)
  | verify {x : Field} (n : Int) : x.IsOf .int → Typed K T [] [.word "VER", x, .num 0, .num n]
  | access {x : Field} (base d : Field) : x.IsOf .int → Typed K T [] [.word "ACCESS", base, x, d]
  | param {args : List Field} {x : Field} {t : Ty} (i : Field) :
      x.IsOf t → Typed K T args [.word "PARAM", x, i]
  | special {args : List Field} {name : String} {s : Special.Signature} :
      Special.signature? name = some s → s.result = none →
      List.Forall₂ (fun x ts => ∃ t ∈ ts, Field.IsOf t x) args.reverse s.parameters →
      Typed K T args [.word name]
  | specialValue {args : List Field} {name : String} {s : Special.Signature} {t : Ty} {a : Int} :
      Special.signature? name = some s → s.result = some t →
      List.Forall₂ (fun x ts => ∃ t ∈ ts, Field.IsOf t x) args.reverse s.parameters →
      (Field.num a).IsOf t → Typed K T args [.word name, .num a]
  | gosub {args : List Field} {name : String} {ks : List Kind} :
      K name ks → List.Forall₂ (fun x k => ∃ t, Kind.ty? k = some t ∧ Field.IsOf t x)
        args.reverse ks →
      Typed K T args [.word "GOSUB", .word name]
  | endproc (fs : List Field) : Typed K T [] (.word "ENDPROC" :: fs)
  | goto {ts : List Int} : (∀ t ∈ ts, T t) → Typed K T [] (.word "GOTO" :: ts.map .num)
  | gotof {x : Field} {ts : List Int} :
      x.IsOf .bool → (∀ t ∈ ts, T t) → Typed K T [] (.word "GOTOF" :: x :: ts.map .num)

variable {K K' : String → List Kind → Prop} {T T' : Int → Prop} {args : List Field} {es : List Int}

theorem Typed.mono (h : q.Typed K T args) (hK : ∀ name ks, K name ks → K' name ks)
    (hT : ∀ t, T t → T' t) : q.Typed K' T' args := by
  cases h with
  | binary o hl hr ht hd => exact .binary o hl hr ht hd
  | unary o hx ht hd => exact .unary o hx ht hd
  | copy h => exact .copy h
  | verify n hx => exact .verify n hx
  | access base d hx => exact .access base d hx
  | param i hx => exact .param i hx
  | special hs hr hargs => exact .special hs hr hargs
  | specialValue hs hr hargs ha => exact .specialValue hs hr hargs ha
  | gosub hk hargs => exact .gosub (hK _ _ hk) hargs
  | endproc fs => exact .endproc fs
  | goto h => exact .goto fun t ht => hT t (h t ht)
  | gotof hx h => exact .gotof hx fun t ht => hT t (h t ht)

/-- The operands of a quad fit its operation, and its jumps go to places where nothing has been
handed over. -/
abbrev typing (K : String → List Kind → Prop) : Demand :=
  ⟨Typed K, fun h hT => h.mono (fun _ _ hk => hk) hT⟩

/-- All quads of a program so far are typed. -/
abbrev CodeTyped (K : String → List Kind → Prop) : List Field → Array Quad → List Int → Prop :=
  (typing K).Throughout

theorem CodeTyped.mono (h : CodeTyped K args qs es) (hK : ∀ name ks, K name ks → K' name ks) :
    CodeTyped K' args qs es :=
  ⟨fun i q hq => (h.quads i q hq).mono hK fun _ ht => ht, h.last, h.entries⟩

theorem Typed.goto_nil : Typed K T [] [.word "GOTO"] :=
  @Typed.goto K T [] nofun

theorem Typed.goto_singleton {t : Int} (ht : T t) : Typed K T [] [.word "GOTO", .num t] :=
  @Typed.goto K T [t] (List.forall_mem_singleton.2 ht)

theorem Typed.gotof_nil {x : Field} (hx : x.IsOf .bool) : Typed K T [] [.word "GOTOF", x] :=
  @Typed.gotof K T x [] hx nofun

/-- What the first word of a quad tells about its operands. -/
structure Typed.Tells (T : Int → Prop) (args : List Field) (w : String) (fs : List Field) :
    Prop where
  goto : w = "GOTO" → args = [] ∧ ∃ ts : List Int, (∀ t ∈ ts, T t) ∧ fs = ts.map .num
  gotof : w = "GOTOF" → args = [] ∧ ∃ x : Field, x.IsOf .bool ∧ ∃ ts : List Int, (∀ t ∈ ts, T t) ∧
    fs = x :: ts.map .num
  copy : w = "=" → args = []
  verify : w = "VER" → ∀ x rest, fs = x :: rest → x.IsOf .int

theorem Typed.tells (h : Typed K T args (.word w :: fs)) : Tells T args w fs := by
  generalize hq : Field.word w :: fs = q at h
  cases h with
  | binary o =>
    cases hq
    constructor <;> cases o <;> simp [BinOp.symbol]
  | unary o =>
    cases hq
    constructor <;> cases o <;> simp [UnOp.mnemonic]
  | special hs | specialValue hs =>
    cases hq
    constructor <;> (rintro rfl; simp [Special.signature?] at hs)
  | goto hts =>
    cases hq
    constructor <;> first | exact fun _ => ⟨rfl, _, hts, rfl⟩ | simp
  | gotof hx hts =>
    cases hq
    constructor <;> first | exact fun _ => ⟨rfl, _, hx, _, hts, rfl⟩ | simp
  | verify n hx =>
    cases hq
    constructor <;> first | simp; done | simp [hx]
  | copy | access | param | gosub | endproc =>
    cases hq
    constructor <;> simp

theorem Typed.of_gosub (h : Typed K T args [.word "GOSUB", .word name]) :
    ∃ ks, K name ks ∧ List.Forall₂ (fun x k => ∃ t, Kind.ty? k = some t ∧ Field.IsOf t x)
      args.reverse ks := by
  generalize hq : [Field.word "GOSUB", .word name] = q at h
  cases h with
  | gosub hk hargs =>
    obtain rfl : name = _ := by simpa using hq
    exact ⟨_, hk, hargs⟩
  | _ => simp at hq

/-- A jump that waits gets targets. -/
theorem Waits.typed (h : q.Waits) (hq : q.Typed K T args) {ts : List Int} (hts : ∀ t ∈ ts, T t) :
    q.passes? = none ∧ passes? (q ++ ts.map .num) = none ∧ Typed K T args (q ++ ts.map .num) := by
  rcases h with rfl | ⟨x, rfl⟩
  · obtain ⟨rfl, -⟩ := hq.tells.goto rfl
    exact ⟨rfl, passes?_eq_none (by decide) _, .goto hts⟩
  · obtain ⟨rfl, _, hx, _, -, heq⟩ := hq.tells.gotof rfl
    obtain ⟨rfl, -⟩ := List.cons.inj heq
    exact ⟨rfl, passes?_eq_none (by decide) _, .gotof hx hts⟩

end Quad

theorem Special.ne_param {s : Special.Signature} (h : Special.signature? name = some s) :
    name ≠ "PARAM" := by
  rintro rfl
  simp [Special.signature?] at h

namespace Compiler

open Quad

variable {c c' : Compiler} {K : String → List Kind → Prop} {args : List Field} {es : List Int}

/-! ## Quiet events -/

/-- Cells handed out between two states are in the region that they were handed out from. -/
def NewCells (c c' : Compiler) : Prop :=
  ∀ s t a, c.next s t ≤ a → a < c'.next s t → Sector.locate? a = some (s, t)

theorem NewCells.reserve {s : Sector} (h : NewCells c c')
    (hnext : c'.next s t = (c.reserve s t 1).next s t) : (Field.num (c.next s t)).IsOf t :=
  ⟨s, h s t _ (Int.le_refl _) (hnext ▸ lt_next_reserve c s t)⟩

theorem Operates.typed {op : String} {r : Operand} (h : Operates op l r c o c')
    (hcode : CodeTyped K [] c.quads es) (hl : l.IsTyped) (hr : r.IsTyped) (hnew : NewCells c c') :
    CodeTyped K [] c'.quads es ∧ o.IsTyped := by
  cases h with
  | @mk b lt rt t hlt hrt hb ht =>
    obtain rfl : b.symbol = op := by simpa using List.find?_some hb
    have hd : (Field.num (c.next .temporals t)).IsOf t := hnew.reserve rfl
    refine ⟨hcode.push_word (.binary b (hl lt hlt) (hr rt hrt) ht hd) (by cases b <;> decide), ?_⟩
    intro u hu
    rw [Kind.row?_value] at hu
    exact Option.some.inj hu ▸ hd

theorem Folds.typed {rest : List (Operand × String)} (h : Folds l rest c o c')
    (hcode : CodeTyped K [] c.quads es) (hl : l.IsTyped) (hrest : ∀ p ∈ rest, p.1.IsTyped)
    (hnew : NewCells c c') : CodeTyped K [] c'.quads es ∧ o.IsTyped := by
  induction h with
  | nil => exact ⟨hcode, hl⟩
  | @cons l r m o op rest c d c' hop hfold ih =>
    obtain ⟨hr, hrest⟩ := List.forall_mem_cons.1 hrest
    obtain ⟨hcode', hm⟩ := hop.typed hcode hl hr fun s t a hlo hhi =>
      hnew s t a hlo (Int.lt_of_lt_of_le hhi (hfold.next s t))
    exact ih hcode' hm hrest fun s t a hlo hhi => hnew s t a (Int.le_trans (hop.next s t) hlo) hhi

theorem codeTyped_point {base n : Int} {index : Field} (h : CodeTyped K [] c.quads es)
    (hindex : index.IsOf .int) : CodeTyped K [] (c.point base n t index).quads es := by
  have h₁ := h.push_word (.verify n hindex) (by decide)
  exact h₁.push_word (.access (.num base) (.num (c.next .temporals t)) hindex) (by decide)

theorem forall₂_of_zip {α β : Type} {R : α → β → Prop} {xs : List α} {ys : List β}
    (hlen : xs.length = ys.length) (h : ∀ p ∈ xs.zip ys, R p.1 p.2) : List.Forall₂ R xs ys :=
  List.forall₂_iff_zip.2 ⟨hlen, fun {_ _} hp => h _ hp⟩

/-- The arguments of a call stand where the kinds of the parameters say. -/
theorem Placed.typed_arguments (h : Placed N rs bs c) (hr : Roomy rs) {s : Scope} {f : Function}
    (hf : c.function? s = some f) (hlen : c.arguments.length = f.parameterKinds.length)
    (hagree : ∀ p ∈ c.arguments.zip f.parameterKinds, p.1.kind.agrees p.2 = true) :
    List.Forall₂ (fun x k => ∃ t, Kind.ty? k = some t ∧ Field.IsOf t x)
      (c.arguments.map Operand.place) f.parameterKinds := by
  rw [List.forall₂_map_left_iff]
  refine forall₂_of_zip hlen fun p hp => ?_
  obtain ⟨hx, hk⟩ := List.of_mem_zip hp
  obtain ⟨t, ht⟩ := h.kinds f (List.mem_of_find?_eq_some hf) p.2 (.inr hk)
  exact ⟨t, ht, ((h.arguments p.1 hx).isTyped hr).of_agrees (hagree p hp) ht⟩

theorem Placed.typed_specials (h : Placed N rs bs c) (hr : Roomy rs) {ps : List (List Ty)}
    (hlen : c.arguments.length = ps.length)
    (hagree : ∀ p ∈ c.arguments.zip ps, (p.2.any fun t => p.1.kind.agrees (.value t)) = true) :
    List.Forall₂ (fun x ts => ∃ t ∈ ts, Field.IsOf t x) (c.arguments.map Operand.place) ps := by
  rw [List.forall₂_map_left_iff]
  refine forall₂_of_zip hlen fun p hp => ?_
  obtain ⟨t, ht, hk⟩ := List.any_eq_true.1 (hagree p hp)
  exact ⟨t, ht, ((h.arguments p.1 (List.of_mem_zip hp).1).isTyped hr).of_agrees hk
    (Kind.ty?_value t)⟩

theorem typed_param (hr : Roomy rs) (h : ∀ x ∈ c.arguments, Stored rs x.place) :
    ∀ x ∈ c.arguments, ∀ T args n, Typed K T args [.word "PARAM", x.place, n] := by
  intro x hx T args n
  obtain ⟨t, ht⟩ := h x hx
  exact .param n (ht.isOf hr)

/-- A function is entered. -/
theorem codeTyped_enterFunction (hp : Placed N rs bs c) (hr : Roomy rs)
    (h : CodeTyped K [] c.quads es) {name : Scope} {rest : List Scope} {f : Function}
    (hcalled : c.called = name :: rest) (hf : c.function? name = some f)
    (hlen : c.arguments.length = f.parameterKinds.length)
    (hagree : ∀ p ∈ c.arguments.zip f.parameterKinds, p.1.kind.agrees p.2 = true)
    (hK : ∀ w g, c.function? (some w) = some g → K w g.parameterKinds) :
    CodeTyped K [] (c.enterFunction name rest).quads es := by
  obtain ⟨w, rfl⟩ := Option.ne_none_iff_exists'.1 (hp.called name (by simp [hcalled]))
  refine h.call (typed_param hr (hp.stored_arguments hf hlen hagree)) (by decide) fun T =>
    .gosub (hK w f hf) ?_
  rw [List.reverse_reverse]
  exact hp.typed_arguments hr hf hlen hagree

theorem Acts.typed_quiet {e : Event} (ha : Acts e c c') (he : e.isQuiet = true)
    (hp : Placed N rs bs c) (hr : Roomy rs) (hnew : NewCells c c')
    (hK : ∀ w, e = .endCall w → ∀ name f, c.function? (some name) = some f →
      K name f.parameterKinds)
    (h : CodeTyped K [] c.quads es) : CodeTyped K [] c'.quads es := by
  have htyped : ∀ o ∈ c.operands, o.IsTyped := fun o ho => (hp.operands o ho).isTyped hr
  cases ha with
  | useElement hx hint =>
    exact codeTyped_point h ((htyped _ (by simp [hx])).of_agrees hint (Kind.ty?_value _))
  | assignVariable hv _ hscalar hx hagree =>
    obtain ⟨t, ht, hvar⟩ := (hp.denoted hv).of_scalar hscalar
    have hright := (hp.top hx).of_ty? ((Kind.ty?_eq_of_agrees hagree).symm.trans ht)
    refine h.push_word (.copy ?_) (by decide)
    rintro _ _ ⟨⟩
    exact ⟨t, hright.isOf hr, hvar.isOf hr⟩
  | @assignElement _ _ v index right rest _ n t hv ho hint hel hk hx hagree =>
    have hindex := ((hp.offset _ ho).isTyped hr).of_agrees hint (Kind.ty?_value _)
    have hright := (hp.top hx).of_ty? ((Kind.ty?_eq_of_agrees hagree).symm.trans hk)
    have h₁ : CodeTyped K [] ({ c with operands := rest, offset := none }.point v.address n t
      index.place).quads es := codeTyped_point h hindex
    refine h₁.push_word (.copy ?_) (by decide)
    rintro _ _ ⟨⟩
    exact ⟨t, hright.isOf hr, hnew .temporals t _ (Int.le_refl _) (lt_next_reserve c .temporals t)⟩
  | @power _ _ l r _ rest hx hop =>
    exact (hop.typed h (htyped l (by simp [hx])) (htyped r (by simp [hx])) hnew).1
  | @fold _ _ o first result below hdrop hfold =>
    have hfirst : first ∈ c.operands := List.mem_of_mem_drop (hdrop ▸ List.mem_cons_self)
    refine (hfold.typed h (htyped first hfirst) (fun p hp => ?_) hnew).1
    exact htyped p.1 (List.mem_of_mem_take (List.mem_reverse.1 (List.of_mem_zip hp).1))
  | @update _ o x _ t u hx ht hu hupd =>
    obtain rfl := UnOp.eq_of_result?_of_updates hupd hu
    have hx' := htyped x (by simp [hx]) _ ht
    exact h.push_word (.unary o hx' hu hx') (by cases o <;> decide)
  | @unary _ o x _ t u hx ht hu =>
    have hx' := htyped x (by simp [hx]) _ ht
    exact h.push_word (.unary o hx' hu (hnew.reserve rfl)) (by cases o <;> decide)
  | @callVoid _ written name rest f hcalled hf hlen hagree =>
    exact codeTyped_enterFunction hp hr h hcalled hf hlen hagree (hK written rfl)
  | @callKnown _ written name rest f k t place hcalled hf hlen hagree hres hk hplace =>
    have h₁ := codeTyped_enterFunction hp hr h hcalled hf hlen hagree (hK written rfl)
    -- The place of the result has the type that the function was declared with.
    obtain ⟨k', t', hk', ht', hresult⟩ := hp.results f (List.mem_of_find?_eq_some hf) _ hplace
    obtain rfl : k' = k := Option.some.inj (hk'.symm.trans hres)
    obtain rfl : t' = t := Option.some.inj (ht'.symm.trans hk)
    refine h₁.push_word (.copy ?_) (by decide)
    rintro _ _ ⟨⟩
    exact ⟨t', hresult.isOf hr, hnew.reserve rfl⟩
  | @callSelf _ written name rest f k t hcalled hf hlen hagree =>
    have h₁ := codeTyped_enterFunction hp hr h hcalled hf hlen hagree (hK written rfl)
    exact h₁.push_word (.copy nofun) (by decide)
  | specialVoid hcalled hs hlen hagree hres =>
    refine h.call (typed_param hr (hp.stored_specials hlen hagree))
      (Special.ne_param hs) fun T => .special hs hres ?_
    rw [List.reverse_reverse]
    exact hp.typed_specials hr hlen hagree
  | specialValue hcalled hs hlen hagree hres =>
    refine h.call (typed_param hr (hp.stored_specials hlen hagree))
      (Special.ne_param hs) fun T => .specialValue hs hres ?_ (hnew.reserve rfl)
    rw [List.reverse_reverse]
    exact hp.typed_specials hr hlen hagree
  | oldConstant | newConstant | dropSize | useVariable | selectElement | chain | beginCall
  | beginSpecial | argument => exact h
  | _ => cases he

/-! ## Signatures -/

/-- The kinds of the parameters of a function that may be called: not of one of which only the head
is known. -/
def HasSignature (c : Compiler) (p : Position) (name : String) (ks : List Kind) : Prop :=
  ¬(p = .head ∧ c.scope = some name) ∧ ∃ f, c.function? (some name) = some f ∧ f.parameterKinds = ks

variable {e : Event} {p p' : Position}

/-- Only declarations change signatures. -/
theorem Acts.parameterKinds (ha : Acts e c c')
    (hlocals : ∀ params vars, e ≠ .declareLocals params vars)
    (hglobals : ∀ vars, e ≠ .declareGlobals vars) {s : Scope} {f : Function}
    (hf : c.function? s = some f) :
    ∃ f', c'.function? s = some f' ∧ f'.parameterKinds = f.parameterKinds := by
  have hsame : c'.functions = c.functions →
      ∃ f', c'.function? s = some f' ∧ f'.parameterKinds = f.parameterKinds := fun h =>
    ⟨f, by rw [function?, h, ← function?, hf], rfl⟩
  have hupdate : ∀ change : Function → Function, (∀ g, (change g).name = g.name) →
      (∀ g, (change g).parameterKinds = g.parameterKinds) →
      c'.functions = (c.functions.map fun g => if g.name = c.scope then change g else g) →
      ∃ f', c'.function? s = some f' ∧ f'.parameterKinds = f.parameterKinds := by
    intro change hname hkinds h
    refine ⟨_, by rw [function?_of_update h hname, hf, Option.map_some], ?_⟩
    split
    · exact hkinds f
    · rfl
  by_cases he : e.isQuiet = true
  · exact hsame (ha.quiet he).functions
  · cases ha with
    | declareGlobals => exact absurd rfl (hglobals _)
    | declareLocals => exact absurd rfl (hlocals _ _)
    | defineFunction =>
      refine ⟨f, ?_, rfl⟩
      rw [function?, define, List.find?_append, ← function?, hf]
      rfl
    | endFunction =>
      exact hupdate (fun g => { g with declared := [] }) (fun _ => rfl) (fun _ => rfl) rfl
    | @giveBack _ x =>
      rw [completeAll_eq] at hupdate ⊢
      exact hupdate (fun g => { g with returnPlace := some x.place }) (fun _ => rfl)
        (fun _ => rfl) rfl
    | closeLoop =>
      rw [completeAll_eq] at hsame ⊢
      exact hsame rfl
    | enterMain | finish | breakLoop | testIf | closeIf | elseBranch | markLoop | testLoop
    | leaveLoop =>
      exact hsame rfl
    | _ => exact absurd rfl he

/-- Once the head of a function is complete, its signature stays. -/
theorem Acts.hasSignature (ha : Acts e c c') (hm : Position.Admits e p p') (ht : c.Tidy e)
    (hat : c.IsAt p) {ks : List Kind} (hs : c.HasSignature p name ks) :
    c'.HasSignature p' name ks := by
  obtain ⟨hhead, f, hf, rfl⟩ := hs
  obtain ⟨f', hf', -, -, hother⟩ := ha.keepsTable.kept hf
  have hinner : e.isInner = true → c'.HasSignature p name f.parameterKinds := by
    intro he
    obtain ⟨f₁, hf₁, hk⟩ := ha.parameterKinds (by rintro _ _ rfl; cases he)
      (by rintro _ rfl; cases he) hf
    exact ⟨by rwa [ha.scope_of_isInner he], f₁, hf₁, hk⟩
  cases hm with
  | size he => exact hinner (Event.isInner_of_isQuiet he.isQuiet)
  | inner he => exact hinner he
  | globals =>
    refine ⟨by simp, f', hf', ?_⟩
    rw [hother]
    simp_all [IsAt, Position.InFunction]
  | define result new =>
    have hnone : c.scope = none := ht
    refine ⟨?_, f', hf', by rw [hother (by simp [hnone])]⟩
    rintro ⟨-, hnew⟩
    cases ha with
    | defineFunction hfresh =>
      obtain rfl : new = name := by simpa [Compiler.define] using hnew
      simp [hfresh] at hf
  | locals =>
    exact ⟨by simp, f', hf', by rw [hother fun h => hhead ⟨rfl, h.symm⟩]⟩
  | close | enter | finish =>
    obtain ⟨f₁, hf₁, hk⟩ := ha.parameterKinds (by simp) (by simp) hf
    exact ⟨by simp, f₁, hf₁, hk⟩

theorem RunsBy.hasSignature {es : List Event} (hr : TidyRuns es c c')
    (hes : Position.Follows p es p') (hat : c.IsAt p) {ks : List Kind}
    (hs : c.HasSignature p name ks) : c'.HasSignature p' name ks := by
  induction hes generalizing c with
  | nil =>
    cases hr
    exact hs
  | cons hm _ ih =>
    obtain ⟨d, ⟨ha, ht⟩, hrest⟩ := runs_cons.1 hr
    exact ih hrest (ha.isAt hm hat) (ha.hasSignature hm ht hat hs)

/-! ## Results that are owed -/

/-- The cells that wait for the result of the current function are of its type. -/
def OwedTyped (c : Compiler) : Prop :=
  ∀ x ∈ c.selfCalls, c.quads[x.1]? = some [.word "="] →
    ∀ k t, c.current.result = some k → k.ty? = some t → (Field.num x.2).IsOf t

theorem OwesResult.exists_function (h : c.OwesResult) : ∃ f, c.function? c.scope = some f := by
  obtain ⟨_, ho, hname, -⟩ := h
  obtain ⟨f, hf, rfl⟩ := List.mem_map.1 ho
  exact Option.isSome_iff_exists.1 (List.find?_isSome.2 ⟨f, hf, by simpa using hname⟩)

/-- A call that is noted goes to a function whose result has no place yet. -/
theorem Acts.mem_selfCalls (ha : Acts e c c') {x : Nat × Int} (hx : x ∈ c'.selfCalls) :
    x ∈ c.selfCalls ∨ ∃ s f k t, c.function? s = some f ∧ f.result = some k ∧ k.ty? = some t ∧
      f.returnPlace = none ∧ x.2 = c.next (variableSector (c.scope == none)) t ∧
      x.2 < c'.next (variableSector (c.scope == none)) t ∧ c'.functions = c.functions ∧
      c'.scope = c.scope := by
  cases ha with
  | declareGlobals hv => exact .inl ((tabulates_globals (.declareGlobals hv)).selfCalls ▸ hx)
  | declareLocals hp hv => exact .inl ((tabulates_locals (.declareLocals hp hv)).selfCalls ▸ hx)
  | power _ hop => exact .inl (hop.selfCalls ▸ hx)
  | fold _ hfold => exact .inl (hfold.selfCalls ▸ hx)
  | giveBack =>
    rw [completeAll_eq] at hx
    exact .inl hx
  | closeLoop =>
    rw [completeAll_eq] at hx
    exact .inl hx
  | @callSelf _ _ name rest f k t _ hf _ _ hres hk hplace =>
    rcases List.mem_append.1 hx with hx | hx
    · exact .inl hx
    · obtain rfl := List.mem_singleton.1 hx
      exact .inr ⟨name, f, k, t, hf, hres, hk, hplace, rfl, lt_next_reserve c _ t, rfl, rfl⟩
  | _ => exact .inl hx

theorem Takes.owedTyped (h : Takes e p c p' c') (howed : c.OwedTyped) : c'.OwedTyped := by
  intro x hx hq k t hk ht
  rcases h.acts.mem_selfCalls hx with hx | ⟨s, f, k', t', hf, hres, ht', hplace, hxa, hlt,
    hfs, hscope⟩
  · -- A copy that waited already: nothing has been added to it.
    obtain ⟨places, hcopy, hnil⟩ := h.copies.copies x hx
    obtain ⟨fs, hfs⟩ := h.acts.grown hcopy
    obtain rfl : places = [] := by
      rw [hq] at hfs
      cases places with
      | nil => rfl
      | cons => simp [copyFields] at hfs
    have howes := hnil rfl
    obtain ⟨f, hf⟩ := howes.exists_function
    have hcurrent : c.current = f := by rw [current, hf, Option.getD_some]
    rcases h.acts.scope with hscope | ⟨result, name, rfl, -, -⟩ | ⟨rfl, -⟩
    · obtain ⟨f', hf', -, hres, -⟩ := h.acts.keepsTable.kept hf
      have hcurrent' : c'.current = f' := by rw [current, hscope, hf', Option.getD_some]
      rw [hcurrent', hres, ← hcurrent] at hk
      exact howed x hx hcopy k t hk ht
    · -- no result is owed outside of functions
      obtain ⟨o, ho, hname, hres, -⟩ := howes
      exact absurd (h.copies.main o ho (hname.trans h.tidy)) hres
    · obtain ⟨rs, bs, hp, -⟩ := h.placed
      cases h.acts with
      | endFunction hend => exact absurd howes (not_owesResult_of_endFunction hp hend)
  · -- A new one: only the function that is being compiled can still owe its result.
    have hname : f.name = c.scope := h.copies.owing (f.name, f.result, f.returnPlace)
      (List.mem_map.2 ⟨f, List.mem_of_find?_eq_some hf, rfl⟩) (by simp [hres]) hplace
    obtain rfl : s = c.scope := (name_of_function? hf).symm.trans hname
    have hcurrent : c'.current = f := by
      rw [current, hscope, function?, hfs, ← function?, hf, Option.getD_some]
    obtain rfl : k' = k := by
      rw [hcurrent, hres] at hk
      exact Option.some.inj hk
    obtain rfl : t' = t := Option.some.inj (ht'.symm.trans ht)
    exact ⟨_, h.locate (Int.le_of_eq hxa.symm) hlt⟩

/-- The result of a function gets its place in the copies that wait for it. -/
theorem Takes.typed_giveBack (h : Takes .giveBack p c p' c') (howed : c.OwedTyped)
    (hcode : CodeTyped K [] c.quads es) : CodeTyped K [] c'.quads es := by
  obtain ⟨rs, bs, hp, hroom⟩ := h.placed
  have hself := h.copies
  cases h.acts with
  | @giveBack _ x rest k hplace hscope hx hres hagree =>
    refine hcode.completed (Compile.size_completeAll _ _) fun i q hq => ?_
    rw [getElem?_completeAll]
    change ∃ q', (c.quads[i]?).map _ = some q' ∧ _
    rw [hq, Option.map_some]
    refine ⟨_, rfl, ?_⟩
    -- Only the noted copies grow, and only those without a place get their first one.
    by_cases hi : ∃ y ∈ c.selfCalls, y.1 = i
    · obtain ⟨y, hy, rfl⟩ := hi
      obtain ⟨places, hcopy, hnil⟩ := hself.copies y hy
      obtain rfl : q = .word "=" :: copyFields places y.2 := Option.some.inj (hq.symm.trans hcopy)
      right
      rw [filter_selfCalls hself.nodup hy x.place]
      refine ⟨passes?_eq_none (by decide) _, passes?_eq_none (by decide) _, ?_⟩
      rw [(hcode.quads _ _ hq).tells.copy rfl]
      refine .copy fun f d hfd => ?_
      cases places with
      | nil =>
        obtain ⟨rfl, rfl⟩ : x.place = f ∧ Field.num y.2 = d := by simpa [copyFields] using hfd
        obtain ⟨g, hg⟩ := (hnil rfl).exists_function
        have hcurrent : c.current = g := by rw [current, hg, Option.getD_some]
        obtain ⟨t, ht⟩ := hp.kinds g (List.mem_of_find?_eq_some hg) k (.inl (hcurrent ▸ hres))
        exact ⟨t, ((hp.top hx).isTyped hroom).of_agrees hagree ht, howed y hy hcopy k t hres ht⟩
      | cons => simp [copyFields] at hfd
    · left
      have hnone : (c.selfCalls.map fun (y : Nat × Int) => (y.1, [x.place, Field.num y.2])).filter
          (·.1 == i) = [] := by
        simp only [List.filter_eq_nil_iff, List.mem_map]
        rintro _ ⟨y, hy, rfl⟩ hyi
        exact hi ⟨y, hy, beq_iff_eq.1 hyi⟩
      rw [hnone, List.flatMap_nil, List.append_nil]

/-- The indices that a run may come to otherwise than from the quad before. -/
def entries (c : Compiler) : List Int :=
  (c.jumps.map fun i : Nat => (i : Int)) ++ c.heads.map Prod.snd

theorem Acts.mem_entries (ha : Acts e c c') {b : Int} (hb : b ∈ c'.entries) :
    b ∈ (c.quads.size : Int) :: c.entries := by
  rcases List.mem_append.1 hb with hb | hb
  · obtain ⟨i, hi, rfl⟩ := List.mem_map.1 hb
    rcases ha.mem_jumps hi with hi | rfl
    · exact List.mem_cons_of_mem _ (List.mem_append_left _ (List.mem_map.2 ⟨i, hi, rfl⟩))
    · exact List.mem_cons_self
  · rcases ha.heads with hheads | ⟨_, _, _, hheads⟩
    · rw [hheads] at hb
      exact List.mem_cons_of_mem _ (List.mem_append_right _ hb)
    · rw [hheads, List.map_append] at hb
      rcases List.mem_append.1 hb with hb | hb
      · exact List.mem_cons_of_mem _ (List.mem_append_right _ hb)
      · rw [List.map_singleton, List.mem_singleton] at hb
        exact hb ▸ List.mem_cons_self

/-- An event that is not quiet keeps what is demanded of the code, if the quad that it adds meets the
demand, and if jumps with targets and copies with operands go on to meet it. -/
theorem Acts.throughout {D : Demand} (ha : Acts e c c') (ht : c.Tidy e) (he : e.isQuiet ≠ true)
    (h : D.Throughout [] c.quads es)
    (hmarks : ∀ q, Marks e c q → D.Throughout [] (c.quads.push q) es)
    (hwaits : ∀ {T args q}, Waits q → D.holds T args q → ∀ {ts : List Int}, (∀ t ∈ ts, T t) →
      q.passes? = none ∧ passes? (q ++ ts.map .num) = none ∧ D.holds T args (q ++ ts.map .num))
    (hcopies : e = .giveBack → ∀ {T args fs} (gs : List Field),
      D.holds T args (.word "=" :: fs) → D.holds T args (.word "=" :: (fs ++ gs))) :
    D.Throughout [] c'.quads es := by
  obtain ⟨added, ps, hquads, hadded, hps⟩ := ha.code_tidy ht he
  have hadds : D.Throughout [] (c.emitAll added.toList).quads es := by
    cases added with
    | none => simpa [emitAll] using h
    | some q => exact hmarks q (hadded q rfl)
  have hsize : c'.quads.size = (c.emitAll added.toList).quads.size := by
    rw [hquads, Compile.size_completeAll]
  rw [hquads]
  refine hadds.completed (Compile.size_completeAll _ _) fun i q hq => ?_
  have hholds := hadds.quads i q hq
  rcases completeAll_cases hps hq with hsame | ⟨hwait, n, hgrown⟩ | ⟨hback, fs, gs, rfl, hcopy⟩
  · exact ⟨q, hsame, .inl rfl⟩
  · -- Jumps land behind the code, where nothing has been handed over.
    refine ⟨_, hgrown, .inr (hwaits hwait hholds fun u hu => ?_)⟩
    rw [List.eq_of_mem_replicate hu, hsize]
    exact hadds.size
  · exact ⟨_, hcopy, .inr ⟨passes?_eq_none (by decide) _, passes?_eq_none (by decide) _,
      hcopies hback gs hholds⟩⟩

/-- The code that has been emitted is typed. -/
structure IsTyped (p : Position) (c : Compiler) : Prop where
  code : CodeTyped (c.HasSignature p) [] c.quads c.entries
  owed : c.OwedTyped

theorem Takes.typed_code (h : Takes e p c p' c') (ht : c.IsTyped p) :
    CodeTyped (c.HasSignature p) [] c'.quads ((c.quads.size : Int) :: c.entries) := by
  have hcode := ht.code.mark
  obtain ⟨rs, bs, hp, hroom⟩ := h.placed
  by_cases he : e.isQuiet = true
  · refine h.acts.typed_quiet he hp hroom (fun s t a => h.locate) (fun w hw name f hf => ?_) hcode
    refine ⟨?_, f, hf, rfl⟩
    rintro ⟨rfl, -⟩
    subst hw
    cases h.admits with
    | size hsize => simp [Position.IsSize] at hsize
    | inner _ hpos => simp at hpos
  · by_cases hback : e = .giveBack
    · subst hback
      exact h.typed_giveBack ht.owed hcode
    refine h.acts.throughout h.tidy he hcode (fun q hq => ?_) Waits.typed
      fun hgive => absurd hgive hback
    cases hq with
    | goto => exact hcode.push_word Typed.goto_nil (by decide)
    | gotof _ hx hbool =>
      exact hcode.push_word (.gotof_nil (((hp.top hx).isTyped hroom).of_agrees hbool
        (Kind.ty?_value _))) (by decide)
    | endproc => exact hcode.push_word (.endproc _) (by decide)
    | @back i _ hi =>
      refine hcode.push_word (.goto_singleton (hcode.entries _ ?_)) (by decide)
      exact List.mem_cons_of_mem _ (List.mem_append_left _ (List.mem_map.2 ⟨i, hi, rfl⟩))

/-- Every event keeps the code typed. -/
theorem Takes.typed (h : Takes e p c p' c') (ht : c.IsTyped p) : c'.IsTyped p' where
  code := CodeTyped.mono ((h.typed_code ht).subset fun _ => h.acts.mem_entries) fun _ _ =>
    h.acts.hasSignature h.admits h.tidy h.isAt
  owed := h.owedTyped ht.owed

theorem isTyped_empty : IsTyped .start {} where
  code := ⟨nofun, rfl, by simp [entries, heads, Function.opened, Clear, passed]⟩
  owed := nofun

end Compiler

open Compiler

/-- The code of a program is typed. -/
theorem Tree.typed {p : Tree} {c : Compiler} (hr : TidyRuns p.events {} c)
    (hpos : Event.Sized p.events) (hfits : c.Fits) : c.IsTyped .done :=
  Tree.invariant (I := fun _ q c => c.IsTyped q) hr hpos hfits isTyped_empty fun _ h => h.typed

end Symphony
