import Symphony.Proofs.Assignments
import Symphony.Proofs.Handover

/-!
# Where a run may enter

A run comes to a quad from the one before it, by a jump, by a call or by a return. The indices that
it can jump to or start a function at are the entries of the code (`Compiler.Enters`). They lie
between the quads of different events (`Compiler.Acts.enters`).

**Theorem (`Tree.followsAccess`).** A quad that stores through a pointer is no entry, and the quad
before it is the access to an array that fills the cell of the pointer.

For assignments to array elements both quads belong to one event. Increments and decrements come
right after the use of what they update, and a use is quiet.
-/

namespace Symphony

variable {a : Int} {c : Compiler} {j k : Nat}

/-- A quad that stores through a pointer, which is its last field. -/
def Quad.StoresThrough (q : Quad) (a : Int) : Prop :=
  ∃ w x, q = [.word w, x, .pointer a] ∧ (w = "=" ∨ ∃ o : UnOp, w = o.mnemonic)

open Quad

namespace Compiler

variable {e : Event} {c' : Compiler}

/-! ## Entries -/

/-- A run may come to an index otherwise than from the quad before: by a jump, which may still wait
for its target, or by a call. -/
def Enters (c : Compiler) (j : Nat) : Prop :=
  (j : Int) ∈ c.entries ∨ ∃ (i : Nat) (q : Quad), c.quads[i]? = some q ∧ q.JumpsTo j

/-- An event adds entries only where it begins and where it ends, and only if it is not quiet. -/
theorem Acts.enters (ha : Acts e c c') (ht : c.Tidy e) (h : c'.Enters j) :
    c.Enters j ∨ e.isQuiet ≠ true ∧ (j = c.quads.size ∨ j = c'.quads.size) := by
  rcases h with hj | ⟨i, q, hq, hj⟩
  · by_cases he : e.isQuiet = true
    · have hquiet := ha.quiet he
      left
      left
      rwa [entries, Compiler.heads, hquiet.jumps, hquiet.functions] at hj
    · rcases List.mem_cons.1 (ha.mem_entries hj) with hj | hj
      · exact .inr ⟨he, .inl (Int.ofNat.inj hj)⟩
      · exact .inl (.inl hj)
  · rcases ha.jump_cases ht hq hj with hold | ⟨he, rfl | ⟨-, hmem⟩⟩
    · exact .inl (.inr ⟨i, q, hold, hj⟩)
    · exact .inr ⟨he, .inr rfl⟩
    · exact .inl (.inl (List.mem_append_left _ (List.mem_map.2 ⟨j, hmem, rfl⟩)))

/-! ## Stores through pointers -/

/-- A run comes to an index only from the quad before, which is an access to an array and fills a
cell. -/
def FollowsAccess (c : Compiler) (k : Nat) (a : Int) : Prop :=
  ¬c.Enters k ∧ ∃ l base x, k = l + 1 ∧ c.quads[l]? = some [.word "ACCESS", base, x, .num a]

/-- After some events, quads that store through a pointer follow the access that fills its cell. So
will a quad that stores through the pointer that was used last. -/
structure Guides (xs : List Event) (c : Compiler) : Prop where
  bound : ∀ {j : Nat}, c.Enters j → j ≤ c.quads.size
  stores : ∀ {k : Nat} {q : Quad} {a : Int}, c.quads[k]? = some q → q.StoresThrough a →
    (∀ y ∈ c.selfCalls, y.1 ≠ k) → c.FollowsAccess k a
  used : ∀ ys e, xs = ys ++ [e] → e.isUse = true → ∀ x rest a, c.operands = x :: rest →
    x.place = .pointer a → c.FollowsAccess c.quads.size a

variable {p p' : Position} {xs : List Event}

/-- Accesses stay, and no event makes an entry of an index that was not one when code was emitted
for it. -/
theorem FollowsAccess.step {k : Nat} {a : Int} (h : c.FollowsAccess k a)
    (htakes : Takes e p c p' c') (hk : e.isQuiet = true ∨ k < c.quads.size) :
    c'.FollowsAccess k a := by
  have hsize := htakes.acts.size_le
  have hruns : TidyRuns [e] c c' := runs_singleton.2 ⟨htakes.acts, htakes.tidy⟩
  obtain ⟨henters, l, base, x, hl, haccess⟩ := h
  refine ⟨fun henters' => ?_, l, base, x, hl, hruns.kept (by decide) haccess⟩
  rcases htakes.acts.enters htakes.tidy henters' with henters' | ⟨hloud, hends⟩
  · exact henters henters'
  · have := hk.resolve_left hloud
    omega

namespace Guides

theorem bound_step (h : Guides xs c) (htakes : Takes e p c p' c') (hj : c'.Enters j) :
    j ≤ c'.quads.size := by
  have hsize := htakes.acts.size_le
  rcases htakes.acts.enters htakes.tidy hj with hj | ⟨-, rfl | rfl⟩
  · exact Nat.le_trans (h.bound hj) hsize
  · exact hsize
  · exact Nat.le_refl _

/-- No run jumps into the quads that a quiet event adds. -/
theorem followsAccess (h : Guides xs c) (htakes : Takes e p c p' c') (hquiet : e.isQuiet = true)
    {base x : Field}
    (haccess : c'.quads[c.quads.size + 1]? = some [.word "ACCESS", base, x, .num a]) :
    c'.FollowsAccess (c.quads.size + 2) a := by
  refine ⟨fun hj => ?_, c.quads.size + 1, base, x, rfl, haccess⟩
  rcases htakes.acts.enters htakes.tidy hj with hj | ⟨hloud, -⟩
  · have := h.bound hj
    omega
  · exact hloud hquiet

theorem stores_step (h : Guides xs c) (htakes : Takes e p c p' c')
    (hmarked : ∀ o, e = .unary o → o.updatesOperand = true → ∃ zs e', xs = zs ++ [e'] ∧
      e'.isUse = true)
    {q : Quad} (hq : c'.quads[k]? = some q) (hstores : q.StoresThrough a)
    (hne : ∀ y ∈ c'.selfCalls, y.1 ≠ k) : c'.FollowsAccess k a := by
  have hruns : TidyRuns [e] c c' := runs_singleton.2 ⟨htakes.acts, htakes.tidy⟩
  have hne' : ∀ y ∈ c.selfCalls, y.1 ≠ k := fun y hy => hne y (Phase.mem_selfCalls hruns hy)
  obtain ⟨w, x, rfl, hw⟩ := hstores
  rcases Nat.lt_or_ge k c.quads.size with hk | hk
  · have hold : c.quads[k]? = some [.word w, x, .pointer a] := by
      rcases hw with rfl | ⟨o, rfl⟩
      · exact htakes.copy_before hk hq hne'
      · obtain ⟨rs, bs, hp, -⟩ := htakes.placed
        exact hruns.quad_before hp (by cases o <;> decide) hk hq
    exact (h.stores hold ⟨w, x, rfl, hw⟩ hne').step htakes (.inr hk)
  · generalize hq' : [Field.word w, x, .pointer a] = q at hq
    cases htakes.acts.brings hk hq with
    | @assignElement name base y z b he haccess =>
      obtain ⟨-, rfl⟩ : x = y ∧ a = b := by simpa using (List.cons.inj hq').2
      subst he
      exact h.followsAccess htakes rfl haccess
    | @update o y rest t he ho hy ht =>
      obtain ⟨zs, e', hxs, he'⟩ := hmarked o he ho
      have hplace : y.place = .pointer a := by
        have := (List.cons.inj (List.cons.inj hq').2).2
        simpa using this.symm
      subst he
      exact (h.used zs e' hxs he' y rest a hy hplace).step htakes (.inl rfl)
    | ordinary hw hfs => exact absurd (List.cons.inj hq').2.symm (hfs x a)
    | _ => simp at hq'

theorem used_step (h : Guides xs c) (htakes : Takes e p c p' c') (he : e.isUse = true) {x : Operand}
    {rest : List Operand} (hx : c'.operands = x :: rest) (ha : x.place = .pointer a) :
    c'.FollowsAccess c'.quads.size a := by
  have hfollows : ∀ {base y : Field}, e.isQuiet = true →
      c'.quads[c.quads.size + 1]? = some [.word "ACCESS", base, y, .num a] →
        c'.FollowsAccess (c.quads.size + 2) a := fun hquiet haccess =>
          h.followsAccess htakes hquiet haccess
  cases htakes.acts with
  | useVariable =>
    obtain ⟨rfl, -⟩ := List.cons.inj hx
    cases ha
  | @useElement _ _ index rest v _ n t =>
    obtain ⟨rfl, -⟩ := List.cons.inj hx
    cases ha
    have haccess := (quads_point { c with operands := rest } v.address n t index.place).2
    have hsize : ({ c with operands := rest }.point v.address n t index.place).quads.size =
        c.quads.size + 2 := by
      simp [point, emit, reserve]
    rw [push, hsize]
    exact hfollows rfl haccess
  | _ => cases he

theorem step (h : Guides xs c) (htakes : Takes e p c p' c')
    (hmarked : ∀ o, e = .unary o → o.updatesOperand = true → ∃ zs e', xs = zs ++ [e'] ∧
      e'.isUse = true) :
    Guides (xs ++ [e]) c' where
  bound := h.bound_step htakes
  stores := h.stores_step htakes hmarked
  used ys e' hsplit he x rest a hx ha := by
    obtain ⟨-, hlast⟩ := List.append_inj' hsplit rfl
    obtain rfl := (List.cons.inj hlast).1
    exact h.used_step htakes he hx ha

theorem empty : Guides [] {} where
  bound := by
    rintro j (hj | ⟨i, q, hq, -⟩)
    · simp [entries, heads, Function.opened] at hj
      omega
    · simp at hq
  stores hq := by simp at hq
  used ys e h := by simp at h

end Guides

/-- The copy of a result goes to the cell that was reserved for it. -/
theorem SelfCopies.eq_num (h : SelfCopies c) {y : Nat × Int} (hy : y ∈ c.selfCalls) {w x d : Field}
    (hq : c.quads[y.1]? = some [w, x, d]) : d = .num y.2 := by
  obtain ⟨places, hcopy, -⟩ := h.copies y hy
  have hfields : [x, d] = copyFields places y.2 :=
    (List.cons.inj (Option.some.inj (hq.symm.trans hcopy))).2
  cases places with
  | nil => cases hfields
  | cons f places => exact (List.cons.inj (List.cons.inj hfields).2).1

end Compiler

open Compiler

/-- In the code of a program a store through a pointer follows the access that fills its cell. -/
theorem Tree.followsAccess {p : Tree} (hr : TidyRuns p.events {} c)
    (hpos : Event.Sized p.events) (hfits : c.Fits) {q : Quad}
    (hq : c.quads[k]? = some q) (hstores : q.StoresThrough a) : c.FollowsAccess k a := by
  have hguides : Guides p.events c := by
    let I (xs : List Event) (_ : Position) (d : Compiler) : Prop :=
      ∀ zs, p.events = xs ++ zs → Guides xs d
    have hstart : I [] .start {} := fun _ _ => .empty
    have hend : I p.events .done c := by
      refine Tree.invariant hr hpos hfits hstart ?_
      intro xs e q q' d d' he htakes h zs hzs
      have hsplit : p.events = xs ++ e :: zs := by
        rw [hzs, List.append_assoc, List.singleton_append]
      refine (h (e :: zs) hsplit).step htakes fun o ho hupdates => ?_
      subst ho
      exact p.marked xs o zs hsplit hupdates
    exact hend [] (List.append_nil _).symm
  refine hguides.stores hq hstores fun y hy hk => ?_
  subst hk
  obtain ⟨w, x, rfl, -⟩ := hstores
  cases (RunsBy.selfCopies_of_empty hr).eq_num hy hq

/-- A run that comes to a store through a pointer has just been at the access. -/
theorem Compiler.FollowsAccess.of_moves {p : Program} {regions fs gs : List Region} {main : Nat}
    {m m' : Machine} (h : c.FollowsAccess j a) (hr : Routed regions main c p)
    (hstands : Stands regions main c fs k m) (hmoves : Moves regions main c p fs k m gs j m') :
    ∃ base x, c.quads[k]? = some [.word "ACCESS", base, x, .num a] := by
  obtain ⟨henters, l, base, x, hl, haccess⟩ := h
  cases hmoves with
  | stay _ _ _ hgoes =>
    rcases hgoes with hnext | ⟨q, hq, hjump⟩
    · obtain rfl : k = l := by omega
      exact ⟨base, x, haccess⟩
    · exact absurd (.inr ⟨k, q, hq, hjump⟩) henters
  | @call r f m' hmem =>
    have hhead : (some r.name, (r.start : Int)) ∈ c.heads := by
      rw [hr.laidOut.heads, headsOf]
      exact List.mem_cons_of_mem _ (List.mem_map.2 ⟨r, hmem, rfl⟩)
    exact absurd (.inl (List.mem_append_right _ (List.mem_map.2 ⟨_, hhead, rfl⟩))) henters
  | @close r gs f saved records i returns hfs hend hf hrecords hreturns =>
    subst hfs
    have hreturned := hstands.returns
    rw [hreturns] at hreturned
    obtain ⟨⟨i', hi', hgosub, -⟩, -⟩ := hreturned
    obtain rfl := Int.ofNat.inj hi'
    obtain rfl : i = l := by omega
    simp [haccess] at hgosub

end Symphony
