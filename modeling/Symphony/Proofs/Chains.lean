import Symphony.Proofs.Actions

/-!
# Chains of operators

A chain of operators of one level is compiled when all its operands are on the stack: the first one,
and for each operator the operand on its right. The types of the partial results are found from the
left. Each of them gets a new temporal cell, and the next operator finds it there.

**Theorem (`Compile.operateLeft_chain`).** If every operator of a chain applies, the chain becomes
one quad for each operator, from left to right, and its last result takes the place of its operands.
If one does not apply, the quads before it have been emitted, the operands are still there, and the
types are complained about, or one of them has no name. A quad with an address of too many digits
cannot be written (`operateLeft_chain_overlong`): the chain is compiled up to the first such quad.

The types alone say how far a chain gets (`Chain.types`), so that the quads can be written down
before the compiler is looked at (`Chain.quads`).
-/

namespace Symphony

variable {s : Link} {t : Ty} {c : Compiler}

/-- The type of a binary operation on operands of any kind, if the operator applies. -/
def BinOp.ty? (o : BinOp) (l r : Kind) : Option Ty :=
  l.row?.bind fun lt => r.row?.bind (o.result? lt)

/-- An operator of a chain, and the operand on its right. -/
structure Link where
  operator : BinOp
  right : Operand

namespace Chain

/-- The types of the partial results of a chain, up to the first operator that does not apply. -/
def types (k : Kind) : List Link → List Ty
  | [] => []
  | s :: rest =>
    match s.operator.ty? k s.right.kind with
    | some t => t :: types (.value t) rest
    | none => []

/-- The partial results, each in the next unused temporal cell of its type. -/
def results (c : Compiler) (ts : List Ty) : List Operand :=
  ts.mapIdx fun i t => ⟨.value t, .num (c.next .temporals t + (ts.take i).count t)⟩

/-- The quads that compute the partial results. -/
def quads (left : Operand) : List Link → List Operand → List Quad
  | s :: rest, o :: os =>
    [.word s.operator.symbol, left.place, s.right.place, o.place] :: quads o rest os
  | _, _ => []

/-- The quads of a chain, as far as its operators apply. -/
def code (c : Compiler) (first : Operand) (links : List Link) : List Quad :=
  quads first links (results c (types first.kind links))

/-- The counters after each of the types got a temporal cell. -/
def Reserves (c : Compiler) (ts : List Ty) (counters : Counters) : Prop :=
  ∀ s t, (counters.get s).get t = c.next s t + if s = .temporals then (ts.count t : Int) else 0

/-- The state after the quads of a chain, as far as its operators apply, have been emitted. -/
def emitted (c : Compiler) (first : Operand) (links : List Link) (counters : Counters) : Compiler :=
  { c with
    counters
    quads := c.quads ++ code c first links }

/-- Why an operator does not apply to its operands: their types do not fit, unless one has no
name. -/
inductive Misfit (line : Nat) (o : BinOp) : Kind → Kind → Rejection → Prop
  | types {l r : Kind} {ln rn : String} :
      l.name? = some ln → r.name? = some rn → Misfit line o l r (.binaryTypes line o.symbol ln rn)
  | left {l r : Kind} {code : Int} : l = .bare code → Misfit line o l r .unnamedType
  | right {l r : Kind} {code : Int} : r = .bare code → Misfit line o l r .unnamedType

theorem types_cons_some {k : Kind} (h : s.operator.ty? k s.right.kind = some t) (rest : List Link) :
    types k (s :: rest) = t :: types (.value t) rest := by
  rw [types, h]

theorem types_cons_none {k : Kind} (h : s.operator.ty? k s.right.kind = none) (rest : List Link) :
    types k (s :: rest) = [] := by
  rw [types, h]

theorem length_types_le (k : Kind) (links : List Link) : (types k links).length ≤ links.length := by
  induction links generalizing k with
  | nil => exact Nat.le_refl 0
  | cons s rest ih =>
    cases h : s.operator.ty? k s.right.kind with
    | some t =>
      rw [types_cons_some h]
      exact Nat.succ_le_succ (ih _)
    | none =>
      rw [types_cons_none h]
      exact Nat.zero_le _

theorem length_results (c : Compiler) (ts : List Ty) : (results c ts).length = ts.length :=
  List.length_mapIdx

theorem length_quads (left : Operand) (links : List Link) (os : List Operand)
    (h : os.length ≤ links.length) : (quads left links os).length = os.length := by
  induction links generalizing left os with
  | nil =>
    obtain rfl := List.length_eq_zero_iff.1 (Nat.le_zero.1 h)
    rfl
  | cons s rest ih =>
    cases os with
    | nil => rfl
    | cons o os => exact congrArg Nat.succ (ih o os (Nat.le_of_succ_le_succ h))

/-- After the first result, the others are those of the chain that is left. -/
theorem results_cons (c : Compiler) (t : Ty) (ts : List Ty) (q : Quad) :
    results c (t :: ts) =
      ⟨.value t, .num (c.next .temporals t)⟩ :: results ((c.reserve .temporals t 1).emit q) ts := by
  unfold results
  rw [List.mapIdx_cons]
  congr 1
  · simp
  · refine List.mapIdx_eq_mapIdx_iff.2 fun i hi => ?_
    change _ = Operand.mk _ (.num ((c.reserve .temporals t 1).next _ _ + _))
    rw [Compiler.next_reserve, List.take_succ_cons, List.count_cons]
    by_cases ht : ts[i] = t
    · simp [ht]
      omega
    · have ht' : ¬t = ts[i] := fun h => ht h.symm
      simp [ht, ht']

theorem Reserves.nil (c : Compiler) : Reserves c [] c.counters := fun s t => by
  simp [Compiler.next]

theorem Reserves.cons {c : Compiler} {t : Ty} {ts : List Ty} {q : Quad} {counters : Counters}
    (h : Reserves ((c.reserve .temporals t 1).emit q) ts counters) :
    Reserves c (t :: ts) counters := fun s u => by
  rw [h s u]
  change (c.reserve .temporals t 1).next s u + _ = _
  rw [Compiler.next_reserve, List.count_cons]
  by_cases hs : s = .temporals
  · by_cases hu : u = t
    · simp [hs, hu]
      omega
    · have hu' : ¬t = u := fun h => hu h.symm
      simp [hs, hu, hu']
  · simp [hs]

theorem length_code (c : Compiler) (first : Operand) (links : List Link) :
    (code c first links).length = (types first.kind links).length := by
  rw [code, length_quads, length_results]
  rw [length_results]
  exact length_types_le _ _

theorem code_cons {first : Operand} {rest : List Link}
    (h : s.operator.ty? first.kind s.right.kind = some t) :
    code c first (s :: rest) =
      let q := [.word s.operator.symbol, first.place, s.right.place, .num (c.next .temporals t)]
      q :: code ((c.reserve .temporals t 1).emit q)
        ⟨.value t, .num (c.next .temporals t)⟩ rest := by
  rw [code, types_cons_some h, results_cons]
  rfl

theorem emitted_cons {first : Operand} (h : s.operator.ty? first.kind s.right.kind = some t)
    (rest : List Link) (counters : Counters) :
    emitted ((c.reserve .temporals t 1).emit
      [.word s.operator.symbol, first.place, s.right.place, .num (c.next .temporals t)])
      ⟨.value t, .num (c.next .temporals t)⟩ rest counters = emitted c first
        (s :: rest) counters := by
  unfold emitted
  rw [code_cons h]
  congr 1

end Chain

namespace Compile

open Chain

variable {line : Nat}

/-- The type of an operation is looked up only if both operands have a row in the table. -/
theorem binaryResult_symbol (o : BinOp) (l r : Kind) :
    (binaryResult o.symbol l r).runFrom c = (.ok (o.ty? l r), c) := by
  unfold binaryResult BinOp.ty?
  rw [BinOp.ofSymbol?_symbol]
  cases hl : l.row? <;> cases hr : r.row? <;> simp

/-- The cell is taken before the quad is written. -/
theorem binary_of_some {o : BinOp} {l r : Operand} {q : Quad} (h : o.ty? l.kind r.kind = some t)
    (hq : q = [.word o.symbol, l.place, r.place, .num (c.next .temporals t)]) :
    (binary o.symbol l r line).runFrom c = if q.all Field.isWritable
      then (.ok ⟨.value t, .num (c.next .temporals t)⟩, (c.reserve .temporals t 1).emit q)
      else (.error .overlongInteger, c.reserve .temporals t 1) := by
  have halloc : (temporalAddress (.value t)).runFrom c =
      (.ok (c.next .temporals t), c.reserve .temporals t 1) := by
    unfold temporalAddress allocate
    rw [Kind.ty?_value]
    rfl
  unfold binary
  rw [Attempt.runFrom_bind, binaryResult_symbol, h]
  dsimp only
  rw [Attempt.runFrom_bind, halloc]
  dsimp only
  rw [Attempt.runFrom_bind, runFrom_emit, ← hq]
  by_cases hwritable : q.all Field.isWritable = true
  · rw [if_pos hwritable, if_pos hwritable]
    rfl
  · rw [if_neg hwritable, if_neg hwritable]

theorem binary_of_none (line : Nat) {o : BinOp} {l r : Operand} (h : o.ty? l.kind r.kind = none) :
    ∃ e, Misfit line o l.kind r.kind e ∧ (binary o.symbol l r line).runFrom c = (.error e, c) := by
  have hrun : (binary o.symbol l r line).runFrom c =
      (do throw (.binaryTypes line o.symbol (← named l.kind) (← named r.kind)) :
        Compile Operand).runFrom c := by
    unfold binary
    rw [Attempt.runFrom_bind, binaryResult_symbol, h]
  rw [hrun]
  cases hl : l.kind with
  | bare code => exact ⟨_, .left rfl, by simp [named, Kind.name?]⟩
  | array | value t =>
    cases hr : r.kind with
    | bare code => exact ⟨_, .right rfl, by simp [named, Kind.name?]⟩
    | array | value u => exact ⟨_, .types rfl rfl, by simp [named, Kind.name?]⟩

/-- What folding a chain does: the quads of its results are emitted, and the last of them is
given. -/
theorem foldLeft_links (line : Nat) (first : Operand) (links : List Link)
    (hquads : ∀ q ∈ code c first links, q.all Field.isWritable = true) :
    ∃ counters, Reserves c (types first.kind links) counters ∧
      ((types first.kind links).length = links.length →
        (foldLeft line first (links.map fun s => (s.right, s.operator.symbol))).runFrom c =
          (.ok ((results c (types first.kind links)).getLastD first),
            emitted c first links counters)) ∧
      ∀ s, links[(types first.kind links).length]? = some s →
        ∃ e, Misfit line s.operator ((results c (types first.kind links)).getLastD first).kind
            s.right.kind e ∧
          (foldLeft line first (links.map fun s => (s.right, s.operator.symbol))).runFrom c =
            (.error e, emitted c first links counters) := by
  induction links generalizing first c with
  | nil =>
    exact ⟨_, .nil c, fun _ => by simp [foldLeft, emitted, code, results, types, quads],
      by simp [types]⟩
  | cons s rest ih =>
    -- What the first operator reserves and emits is part of the state the rest of the chain starts
    -- from.
    rw [List.map_cons, foldLeft, Attempt.runFrom_bind]
    cases h : s.operator.ty? first.kind s.right.kind with
    | none =>
      obtain ⟨e, he, hrun⟩ := binary_of_none line (c := c) h
      rw [types_cons_none h, hrun]
      refine ⟨_, .nil c, fun hlen => absurd hlen (Nat.succ_ne_zero _).symm, fun s' hs' => ?_⟩
      cases hs'
      exact ⟨e, he, by simp [emitted, code, types_cons_none h, results, quads]⟩
    | some t =>
      rw [code_cons h] at hquads
      obtain ⟨hfirst, hquads⟩ := List.forall_mem_cons.1 hquads
      obtain ⟨counters, hres, hall, hsome⟩ := ih _ hquads
      rw [emitted_cons h] at hall hsome
      rw [types_cons_some h, binary_of_some h rfl, if_pos hfirst, results_cons, List.getLastD_cons]
      exact ⟨counters, hres.cons, fun hlen => hall (Nat.succ.inj hlen), hsome⟩

/-- Folding stops at the first quad that cannot be written. Its cell has been taken. -/
theorem foldLeft_overlong (line : Nat) (first : Operand) (links : List Link) {k : Nat} {q : Quad}
    (hq : (code c first links)[k]? = some q) (hlong : q.all Field.isWritable = false)
    (hbefore : ∀ q' ∈ (code c first links).take k, q'.all Field.isWritable = true) :
    ∃ counters, Reserves c ((types first.kind links).take (k + 1)) counters ∧
      (foldLeft line first (links.map fun s => (s.right, s.operator.symbol))).runFrom c =
        (.error .overlongInteger, { c with
          counters
          quads := c.quads ++ (code c first links).take k }) := by
  induction links generalizing first c k with
  | nil => cases hq
  | cons s rest ih =>
    cases h : s.operator.ty? first.kind s.right.kind with
    | none => simp [code, types_cons_none h, results, quads] at hq
    | some t =>
      rw [code_cons h] at hq hbefore ⊢
      rw [List.map_cons, foldLeft, Attempt.runFrom_bind, types_cons_some h, binary_of_some h rfl]
      cases k with
      | zero =>
        cases hq
        refine ⟨_, .cons (q := []) (.nil _), ?_⟩
        rw [if_neg (by simp [hlong])]
        simp [Compiler.reserve, Compiler.emit]
      | succ k =>
        obtain ⟨hfirst, hbefore⟩ := List.forall_mem_cons.1 hbefore
        obtain ⟨counters, hres, hrun⟩ := ih _ hq hbefore
        refine ⟨counters, hres.cons, ?_⟩
        rw [if_pos hfirst]
        refine hrun.trans ?_
        simp [Compiler.emit, Compiler.reserve]

/-- The first operator completes the list of operators, and each of them finds its operand. -/
theorem operateLeft_of_links {links : List Link} {first : Operand} {below : List Operand}
    {op : String} (hoperands : c.operands = (links.map Link.right).reverse ++ first :: below)
    (hchained : op :: c.chained = links.map (·.operator.symbol)) :
    (operateLeft op line).runFrom c =
      (do
        let result ← foldLeft line first (links.map fun s => (s.right, s.operator.symbol))
        modify fun c => { c with chained := [], operands := result :: below } :
          Compile Unit).runFrom { c with chained := op :: c.chained } := by
  have hlength : (op :: c.chained).length = ((links.map Link.right).reverse).length := by
    rw [hchained, List.length_reverse, List.length_map, List.length_map]
  have hzip : (links.map Link.right).zip (op :: c.chained) =
      links.map fun s => (s.right, s.operator.symbol) := by
    rw [hchained, List.zip_map']
  unfold operateLeft chain
  simp only [Attempt.runFrom_bind, Attempt.runFrom_modify, Attempt.runFrom_get]
  rw [hoperands, hlength, List.drop_left, List.take_left, List.reverse_reverse, hzip]
  simp only [Attempt.runFrom_bind, Attempt.runFrom_modify]

/-- **A chain is folded from the left, as far as its quads can be written.** -/
theorem operateLeft_chain (c : Compiler) (line : Nat) (op : BinOp) (first : Operand)
    (links : List Link) (below : List Operand)
    (hoperands : c.operands = (links.map Link.right).reverse ++ first :: below)
    (hchained : op.symbol :: c.chained = links.map (·.operator.symbol)) :
    (code c first links).length = (types first.kind links).length ∧
    ((∀ q ∈ code c first links, q.all Field.isWritable = true) →
      ∃ counters, Reserves c (types first.kind links) counters ∧
        ((types first.kind links).length = links.length →
          ∃ last, (results c (types first.kind links)).getLast? = some last ∧
            (operateLeft op.symbol line).runFrom c =
              (.ok (), { emitted c first links counters with
                operands := last :: below
                chained := [] })) ∧
        ∀ s, links[(types first.kind links).length]? = some s →
          ∃ e, Misfit line s.operator ((results c (types first.kind links)).getLastD first).kind
              s.right.kind e ∧
            (operateLeft op.symbol line).runFrom c = (.error e,
              { emitted c first links counters with chained := op.symbol :: c.chained })) ∧
    ∀ k q, (code c first links)[k]? = some q → q.all Field.isWritable = false →
      (∀ q' ∈ (code c first links).take k, q'.all Field.isWritable = true) →
      ∃ counters, Reserves c ((types first.kind links).take (k + 1)) counters ∧
        (operateLeft op.symbol line).runFrom c =
          (.error .overlongInteger, { c with
            counters
            quads := c.quads ++ (code c first links).take k
            chained := op.symbol :: c.chained }) := by
  refine ⟨?_, fun hquads => ?_, fun k q hq hlong hbefore => ?_⟩
  · exact length_code c first links
  · -- Every quad can be written: the fold ends at the last link or at one that does not apply.
    obtain ⟨counters, hres, hall, hsome⟩ := foldLeft_links line first links
      (c := { c with chained := op.symbol :: c.chained }) hquads
    refine ⟨counters, hres, fun hlen => ?_, fun s hs => ?_⟩
    · have hne : results c (types first.kind links) ≠ [] := by
        rw [← List.length_pos_iff, length_results, hlen, ← List.length_map (·.operator.symbol),
          ← hchained]
        exact Nat.succ_pos _
      refine ⟨(results c (types first.kind links)).getLastD first, ?_, ?_⟩
      · rw [List.getLastD_eq_getLast?, List.getLast?_eq_some_getLast hne, Option.getD_some]
      · rw [operateLeft_of_links hoperands hchained, Attempt.runFrom_bind, hall hlen]
        rfl
    · obtain ⟨e, he, hrun⟩ := hsome s hs
      refine ⟨e, he, ?_⟩
      rw [operateLeft_of_links hoperands hchained, Attempt.runFrom_bind, hrun]
      rfl
  · -- The fold ends at the first quad that cannot be written.
    obtain ⟨counters, hres, hrun⟩ := foldLeft_overlong line first links
      (c := { c with chained := op.symbol :: c.chained }) hq hlong hbefore
    refine ⟨counters, hres, ?_⟩
    rw [operateLeft_of_links hoperands hchained, Attempt.runFrom_bind, hrun]
    rfl

/-- `1 / 2 - 3` becomes two quads. In `1 + 2 + (not b)` the second operator does not apply, and the
type of its right operand has no name. -/
theorem operateLeft_chain_two :
    (∃ c', (operateLeft "/" 1).runFrom
        { operands := [⟨.value .int, .num 3⟩, ⟨.value .int, .num 2⟩, ⟨.value .int, .num 1⟩]
          chained := ["-"] } = (.ok (), c') ∧
      c'.quads = #[[.word "/", .num 1, .num 2, .num 186000],
        [.word "-", .num 186000, .num 3, .num 186001]] ∧
      c'.operands = [⟨.value .dec, .num 186001⟩]) ∧
    ∃ c', (operateLeft "+" 1).runFrom
        { operands := [⟨.bare 3, .num 3⟩, ⟨.value .int, .num 2⟩, ⟨.value .int, .num 1⟩]
          chained := ["+"] } = (.error .unnamedType, c') ∧
      c'.quads = #[[.word "+", .num 1, .num 2, .num 130000]] ∧ c'.operands.length = 3 := by
  constructor
  · obtain ⟨_, hwritable, _⟩ := operateLeft_chain
      { operands := [⟨.value .int, .num 3⟩, ⟨.value .int, .num 2⟩, ⟨.value .int, .num 1⟩]
        chained := ["-"] } 1 .div ⟨.value .int, .num 1⟩
      [⟨.div, .value .int, .num 2⟩, ⟨.sub, .value .int, .num 3⟩] [] rfl rfl
    obtain ⟨_, _, hall, _⟩ := hwritable (by decide +kernel)
    obtain ⟨last, hlast, hrun⟩ := hall rfl
    cases hlast
    exact ⟨_, hrun, rfl, rfl⟩
  · obtain ⟨_, hwritable, _⟩ := operateLeft_chain
      { operands := [⟨.bare 3, .num 3⟩, ⟨.value .int, .num 2⟩, ⟨.value .int, .num 1⟩]
        chained := ["+"] } 1 .add ⟨.value .int, .num 1⟩
      [⟨.add, .value .int, .num 2⟩, ⟨.add, .bare 3, .num 3⟩] [] rfl rfl
    obtain ⟨_, _, _, hsome⟩ := hwritable (by decide +kernel)
    obtain ⟨e, he, hrun⟩ := hsome _ rfl
    cases he with
    | types _ hname => cases hname
    | left | right => exact ⟨_, hrun, rfl, rfl⟩

/-- An integer can be added to any other one, but the address of one with too many digits cannot be
written. -/
theorem operateLeft_chain_overlong :
    let first : Operand := ⟨.value .int, .num Text.tooLong⟩
    let links : List Link := [⟨.add, .value .int, .num 1⟩]
    let c : Compiler := { operands := [⟨.value .int, .num 1⟩, first] }
    types first.kind links = [.int] ∧ c.operands = (links.map Link.right).reverse ++ [first] ∧
      ∃ c', (operateLeft "+" 1).runFrom c = (.error .overlongInteger, c') ∧ c'.quads = #[] := by
  intro first links c
  have hoperands : c.operands = (links.map Link.right).reverse ++ [first] := rfl
  have hlinks := @operateLeft_of_links c 1 links first [] "+" hoperands rfl
  obtain ⟨counters, -, hrun⟩ := foldLeft_overlong 1 first links (c := { c with chained := ["+"] })
    (k := 0) rfl
    (by decide +kernel) (List.forall_mem_nil _)
  rw [Attempt.runFrom_bind, hrun] at hlinks
  exact ⟨rfl, hoperands, _, hlinks, rfl⟩

end Compile

end Symphony
