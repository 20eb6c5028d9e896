import Symphony.Compiler.Perform
import Symphony.Proofs.Lookahead

/-!
# Acceptance

Recognition accepts the grammar. A stack of goals takes a token exactly if the token begins one of
its words (`cons_mem_stackWords`), and is done at the end exactly if it has the empty word, so a run
of recognition finds the first lexeme that continues no word of the grammar (`verdict_ofGoals`).

The grammar is ambiguous in one place: a further branch after the branches of nested conditionals
can belong to any of them. The innermost takes it, and loses no word by that, since whatever the
outer ones could make of the branch the inner one can (`mem_absorb`).
-/

namespace Symphony

open Nonterminal Language

variable {es : List Event}

namespace Goal

variable {next : Option Token → Prop} {g : Goal} {gs : List Goal} {t : Token} {w : List Terminal}

/-! ## One goal and one token -/

theorem shifts_of_cons_mem (hg : g.IsProper) (h : t.terminal :: w ∈ g.words) : g.Shifts t := by
  obtain ⟨es, hs, h, -⟩ := (cons_mem_words hg).1 h
  exact ⟨es, hs, h⟩

theorem doneIf_of_allows {f : Follow} {o : Option Token} (h : f.allows o = true) :
    doneIf f o es = .done es :=
  if_pos h

/-- A goal that is done without a token has the empty word. -/
theorem nullable_of_done (h : g.reactTo t = .done es) : g.nullable = true := by
  cases g with
  | act | actIf | check | declarations
  | functions | statements | branches | moreBranches | tail | chain
  | powerTail | reference | arguments | moreArguments => rfl
  | expect =>
    simp only [reactTo] at h
    split at h <;> cases h
  | expression | unsigned | operandOf | factor => exact absurd h shiftIf_ne_done
  | _ =>
    simp only [reactTo, afterName] at h
    repeat' split at h
    all_goals cases h

/-- The operators of a chain do not follow it. -/
theorem not_allows_operator {l : Level} {o : BinOp} (h : l.operator? t = some o) :
    l.follow.allows (some t) = false := by
  cases t with
  | symbol s => cases l <;> cases s <;> first | rfl | cases h
  | keyword k => cases l <;> cases k <;> first | rfl | cases h
  | _ => cases l <;> cases h

/-- Where the next token may follow a goal with the empty word, the goal is done, unless the token
begins a branch that it can take. -/
theorem done_or_branch (hg : g.IsProper) (hn : g.nullable = true)
    (ha : g.allowsNext (some t) = true) :
    (∃ es, g.reactTo t = .done es) ∨
      (g = branches ∨ g = moreBranches) ∧ (t = .keyword .else_ ∨ t = .keyword .elseif) := by
  cases g with
  | act => exact .inl ⟨_, rfl⟩
  | actIf | check => exact .inl ⟨_, doneIf_of_allows ha⟩
  -- Where a goal could take the token too, the token is none of those that may follow it.
  | declarations site =>
    simp only [reactTo]
    split
    · cases site <;> cases ha
    · exact .inl ⟨_, doneIf_of_allows ha⟩
  | functions =>
    simp only [reactTo]
    split
    · cases ha
    · exact .inl ⟨_, doneIf_of_allows ha⟩
  | statements f =>
    have hend := hg _ ha
    have hafter : afterStatement t = none := by
      rw [show t = .symbol .rbrace from beq_iff_eq.1 hend]
      rfl
    simp only [reactTo, hafter]
    exact .inl ⟨_, doneIf_of_allows ha⟩
  | branches | moreBranches =>
    simp only [reactTo]
    split
    · simp
    · simp
    · rename_i helse helseif
      refine .inl ⟨_, doneIf_of_allows ?_⟩
      simp only [allowsNext, Follow.allows, Bool.or_eq_true, beq_iff_eq] at ha ⊢
      obtain (h | rfl) | rfl := ha
      · exact h
      · exact (helse rfl).elim
      · exact (helseif rfl).elim
  | tail l | chain l =>
    simp only [reactTo]
    split
    · rename_i ho
      cases (not_allows_operator ho).symm.trans ha
    · exact .inl ⟨_, doneIf_of_allows ha⟩
  | powerTail =>
    simp only [reactTo]
    split
    · rename_i hpower
      simp only [allowsNext, Follow.allows] at ha
      cases t with
      | symbol s => cases s <;> cases hpower; cases ha
      | _ => cases ha
    · exact .inl ⟨_, doneIf_of_allows ha⟩
  | reference =>
    simp only [reactTo]
    split
    · cases ha
    · cases ha
    · exact .inl ⟨_, doneIf_of_allows ha⟩
  | arguments | moreArguments =>
    simp only [allowsNext, beq_iff_eq, Option.some.injEq] at ha
    exact .inl ⟨_, by rw [ha]; rfl⟩
  | _ => cases hn

/-- At the end of the source a goal is done where the end may follow it. -/
theorem reactToEnd_eq_done (hn : g.nullable = true) (ha : g.allowsNext none = true) :
    ∃ es, g.reactToEnd = .done es := by
  cases g with
  | act => exact ⟨_, rfl⟩
  | actIf | check | declarations | functions | statements => exact ⟨_, doneIf_of_allows ha⟩
  | branches | moreBranches => exact ⟨_, rfl⟩
  | tail l | chain l => cases l <;> cases ha
  | powerTail | reference | arguments | moreArguments => cases ha
  | _ => cases hn

theorem nullable_of_done_end (h : g.reactToEnd = .done es) : g.nullable = true := by
  cases g <;> first | rfl | cases h

/-! ## Stacks of goals -/

theorem leads_of_cons_mem (hf : Fits next gs) (h : t.terminal :: w ∈ stackWords gs) :
    Leads next gs (some t) := by
  induction gs with
  | nil => simp at h
  | cons g gs ih =>
    rw [stackWords_cons, cons_mem_mul] at h
    obtain ⟨u, v, rfl, hu, -⟩ | ⟨hnil, h⟩ := h
    · exact .inl ⟨t, rfl, shifts_of_cons_mem hf.1 hu⟩
    · exact .inr ⟨(nil_mem_words g).1 hnil, ih hf.2.2 h⟩

theorem leads_of_nil_mem (hnext : next none) (h : [] ∈ stackWords gs) : Leads next gs none := by
  induction gs with
  | nil => exact hnext
  | cons g gs ih =>
    rw [stackWords_cons, nil_mem_mul] at h
    exact .inr ⟨(nil_mem_words g).1 h.1, ih h.2⟩

/-- Only goals for branches take the keywords that begin them. -/
theorem eq_branches_of_shifts (hg : g.IsProper) (ht : t = .keyword .else_ ∨ t = .keyword .elseif)
    (h : g.Shifts t) : g = branches ∨ g = moreBranches := by
  obtain ⟨es, hs, h⟩ := h
  cases g with
  | branches => exact .inl rfl
  | moreBranches => exact .inr rfl
  | expect u =>
    simp only [reactTo] at h
    split at h
    · rename_i hu
      exact absurd (hu ▸ ht) (not_or.2 hg.2)
    · cases h
  | act => cases h
  | actIf | check => exact absurd h doneIf_ne_shift
  | declarations | functions => obtain rfl | rfl := ht <;> exact absurd h doneIf_ne_shift
  | statements => obtain rfl | rfl := ht <;> exact absurd h doneIf_ne_shift
  | tail l | chain l =>
    obtain rfl | rfl := ht <;> cases l <;> exact absurd h doneIf_ne_shift
  | operandOf l => obtain rfl | rfl := ht <;> cases l <;> cases h
  | reference => obtain rfl | rfl := ht <;> exact absurd h doneIf_ne_shift
  | _ => obtain rfl | rfl := ht <;> cases h

theorem otherElses_subset (h : w ∈ wordsOf otherElses) : w ∈ wordsOf optionalElses := by
  rw [wordsOf_optionalElses]
  rw [wordsOf_otherElses] at h ⊢
  simp only [mem_add, mul_add, mul_one] at h ⊢
  tauto

/-- A further branch can also be taken by the innermost of the conditionals that it may continue. -/
theorem mem_absorb {B : Language Terminal} (ht : t = .keyword .else_ ∨ t = .keyword .elseif)
    (hB : ∀ (L : Language Terminal) (w : List Terminal), t.terminal :: w ∈ wordsOf elseifElse * L ↔
      w ∈ B * L)
    (hf : Fits next gs) (h : t.terminal :: w ∈ stackWords gs) : w ∈ B * stackWords gs := by
  have hmono : ∀ {L M : Language Terminal} {w : List Terminal}, (∀ v, v ∈ L → v ∈ M) → w ∈ B * L →
      w ∈ B * M := by
    intro L M w hLM hw
    obtain ⟨u, hu, v, hv, rfl⟩ := mem_mul.1 hw
    exact append_mem_mul hu (hLM v hv)
  have hone : t.terminal :: w ∉ (1 : Language Terminal) := by simp
  induction gs with
  | nil => exact absurd h hone
  | cons g gs ih =>
    rw [stackWords_cons, cons_mem_mul] at h
    obtain ⟨u, v, rfl, hu, hv⟩ | ⟨hnil, h⟩ := h
    · rw [stackWords_cons, ← mul_assoc]
      refine append_mem_mul ?_ hv
      have hone : t.terminal :: u ∉ (1 : Language Terminal) := by simp
      obtain rfl | rfl := eq_branches_of_shifts hf.1 ht (shifts_of_cons_mem hf.1 hu)
      · rw [words, wordsOf_optionalElses, mem_add, hB] at hu
        exact hmono (fun _ => otherElses_subset) (hu.resolve_left hone)
      · rw [words, wordsOf_otherElses, mem_add, ← mul_one (wordsOf elseifElse), hB] at hu
        exact hmono (fun v hv => (mem_one v).1 hv ▸ (nil_mem_words moreBranches).2 rfl)
          (hu.resolve_left hone)
    · exact hmono (fun v hv => append_mem_mul hnil hv) (ih hf.2.2 h)

/-- The goals of a branch after its keyword. -/
theorem exists_branch (ht : t = .keyword .else_ ∨ t = .keyword .elseif) :
    ∃ bs, branches.reactTo t = .shift [] (bs ++ [moreBranches]) ∧
      moreBranches.reactTo t = .shift [] bs ∧ ∀ (L : Language Terminal) (w : List Terminal),
        t.terminal :: w ∈ wordsOf elseifElse * L ↔ w ∈ stackWords bs * L := by
  obtain rfl | rfl := ht
  · exact ⟨elseGoals, rfl, rfl, fun L w => by simp [cons_mem_elseifElse_mul]⟩
  · exact ⟨elseifGoals, rfl, rfl, fun L w => by simp [cons_mem_elseifElse_mul]⟩

/-- A stack of goals takes a token exactly if the token begins one of its words. -/
theorem cons_mem_stackWords (hf : Fits next gs) :
    t.terminal :: w ∈ stackWords gs ↔ ∃ hs, (Trace.take t gs).2 = some hs ∧ w ∈ stackWords hs := by
  induction gs with
  | nil => simp [Trace.take]
  | cons g gs ih =>
    have ih := ih hf.2.2
    rw [stackWords_cons, cons_mem_mul]
    constructor
    · rintro (⟨u, v, rfl, hu, hv⟩ | ⟨hnil, h⟩)
      · obtain ⟨es, push, hshift, hpush⟩ := (cons_mem_words hf.1).1 hu
        refine ⟨push ++ gs, by simp [Trace.take, hshift], ?_⟩
        rw [stackWords_append]
        exact append_mem_mul hpush hv
      · have hallows := hf.2.1 _ (leads_of_cons_mem hf.2.2 h)
        obtain ⟨es, hdone⟩ | ⟨hbranch, ht⟩ := done_or_branch hf.1 ((nil_mem_words g).1 hnil) hallows
        · simpa [Trace.take, hdone] using ih.1 h
        · -- An open conditional takes the branch that belongs to an outer one in the word.
          obtain ⟨bs, hfirst, hmore, hwords⟩ := exists_branch ht
          have hw := mem_absorb ht hwords hf.2.2 h
          obtain rfl | rfl := hbranch
          · refine ⟨bs ++ [moreBranches] ++ gs, by simp only [Trace.take, hfirst], ?_⟩
            obtain ⟨u, hu, v, hv, rfl⟩ := mem_mul.1 hw
            rw [stackWords_append, stackWords_append, mul_assoc]
            refine append_mem_mul hu (append_mem_mul (a := []) ?_ hv)
            rw [stackWords_cons, stackWords_nil, mul_one]
            exact (nil_mem_words moreBranches).2 rfl
          · exact ⟨bs ++ gs, by simp only [Trace.take, hmore], by rwa [stackWords_append]⟩
    · rintro ⟨hs, htake, hw⟩
      cases hreact : g.reactTo t with
      | shift es push =>
        simp only [Trace.take, hreact, Option.some.injEq] at htake
        rw [← htake, stackWords_append] at hw
        obtain ⟨u, hu, v, hv, rfl⟩ := mem_mul.1 hw
        exact .inl ⟨u, v, rfl, (cons_mem_words hf.1).2 ⟨es, push, hreact, hu⟩, hv⟩
      | done es =>
        simp only [Trace.take, hreact] at htake
        exact .inr ⟨(nil_mem_words g).2 (nullable_of_done hreact), ih.2 ⟨hs, htake, hw⟩⟩
      | reject => simp [Trace.take, hreact] at htake

theorem Fits.take (hf : Fits next gs) {hs : List Goal} (h : (Trace.take t gs).2 = some hs) :
    Fits next hs := by
  induction gs with
  | nil => cases h
  | cons g gs ih =>
    cases hreact : g.reactTo t with
    | shift es push =>
      simp only [Trace.take, hreact, Option.some.injEq] at h
      rw [← h]
      exact fits_append.2 ⟨(fits_of_shift hf.1 hreact).mono hf.2.1, hf.2.2⟩
    | done es =>
      simp only [Trace.take, hreact] at h
      exact ih hf.2.2 h
    | reject => simp [Trace.take, hreact] at h

theorem stackWords_release (gs : List Goal) : stackWords (Trace.release gs).2 = stackWords gs := by
  induction gs with
  | nil => rfl
  | cons g gs ih =>
    cases g with
    | act e => simpa [Trace.release, words] using ih
    | _ => rfl

theorem Fits.release (hf : Fits next gs) : Fits next (Trace.release gs).2 := by
  induction gs with
  | nil => trivial
  | cons g gs ih =>
    cases g with
    | act e => exact ih hf.2.2
    | _ => exact hf

/-- A stack of goals is done at the end exactly if it has the empty word. -/
theorem nil_mem_stackWords (hf : Fits (· = none) gs) :
    [] ∈ stackWords gs ↔ (Trace.close gs).2 = true := by
  induction gs with
  | nil => simp [Trace.close]
  | cons g gs ih =>
    have ih := ih hf.2.2
    rw [stackWords_cons, nil_mem_mul]
    constructor
    · rintro ⟨hnil, h⟩
      obtain ⟨es, hdone⟩ := reactToEnd_eq_done ((nil_mem_words g).1 hnil)
        (hf.2.1 _ (leads_of_nil_mem rfl h))
      simpa [Trace.close, hdone] using ih.1 h
    · intro h
      cases hreact : g.reactToEnd with
      | done es =>
        simp only [Trace.close, hreact] at h
        exact ⟨(nil_mem_words g).2 (nullable_of_done_end hreact), ih.2 h⟩
      | _ => simp [Trace.close, hreact] at h

/-! ## Whole sources -/

/-- A goal that some word can reach. -/
def Productive (g : Goal) : Prop :=
  ∃ w, w ∈ g.words

theorem exists_mem_of_productive (h : ∀ g ∈ gs, g.Productive) : ∃ w, w ∈ stackWords gs := by
  induction gs with
  | nil => exact ⟨[], nil_mem_one⟩
  | cons g gs ih =>
    obtain ⟨u, hu⟩ := h g List.mem_cons_self
    obtain ⟨v, hv⟩ := ih fun g hg => h g (List.mem_cons_of_mem _ hg)
    exact ⟨u ++ v, append_mem_mul hu hv⟩

theorem productive_of_nullable (h : g.nullable = true) : g.Productive :=
  ⟨[], (nil_mem_words g).2 h⟩

@[simp]
theorem productive_sym (s : Symbol) : (sym s).Productive :=
  ⟨_, rfl⟩

/-- A goal that takes a token and leaves goals with words has one. -/
theorem productive_of_shift {push : List Goal} (t : Token) (hreact : g.reactTo t = .shift es push)
    (hg : g.IsProper) (hpush : ∀ h ∈ push, h.nullable = true ∨ h.Productive) : g.Productive := by
  obtain ⟨w, hw⟩ := exists_mem_of_productive fun h hh => (hpush h hh).elim productive_of_nullable id
  exact ⟨_, (cons_mem_words hg).2 ⟨es, push, hreact, hw⟩⟩

theorem productive (g : Goal) : g.Productive := by
  -- The goals that others need come first, as they are not nullable.
  have hexpression : expression.Productive :=
    productive_of_shift (.intVal 0) rfl trivial (by simp [nullable])
  have hmoreNames : ∀ site vars ty names, (moreNames site vars ty names).Productive :=
    fun _ _ _ _ => productive_of_shift (.symbol .semicolon) rfl trivial (by simp [nullable])
  have hdeclared : ∀ site vars ty names name, (declared site vars ty names name).Productive :=
    fun _ _ _ _ _ => productive_of_shift (.symbol .semicolon) rfl trivial (by simp [nullable])
  have hbody : ∀ params, ∀ g ∈ bodyGoals params, g.nullable = true ∨ g.Productive := by
    simp [bodyGoals, nullable]
  have hmoreParameters : ∀ params, (moreParameters params).Productive := fun _ =>
    productive_of_shift (.symbol .rparen) rfl trivial (hbody _)
  have hparameterName : ∀ params ty, (parameterName params ty).Productive := fun _ _ =>
    productive_of_shift (.ident "") rfl trivial (by simp [hmoreParameters])
  have hparameters : parameters.Productive :=
    productive_of_shift (.symbol .rparen) rfl trivial (hbody _)
  have hfunctionName : ∀ result, (functionName result).Productive := fun _ =>
    productive_of_shift (.ident "") rfl trivial (by simp [hparameters, nullable])
  by_cases hn : g.nullable = true
  · exact productive_of_nullable hn
  · cases g with
    | expect | anyName => exact ⟨_, rfl⟩
    | declarator => exact productive_of_shift (.ident "") rfl trivial (by simp [hdeclared])
    | declared => exact hdeclared _ _ _ _ _
    | arraySize =>
      exact productive_of_shift (.intVal 0) rfl trivial (by simp [hmoreNames, nullable])
    | moreNames => exact hmoreNames _ _ _ _
    | resultType => exact productive_of_shift (.keyword .void) rfl trivial (by simp [hfunctionName])
    | functionName => exact hfunctionName _
    | parameters => exact hparameters
    | parameterType =>
      exact productive_of_shift (.keyword (.type .int)) rfl trivial (by simp [hparameterName])
    | parameterName => exact hparameterName _ _
    | moreParameters => exact hmoreParameters _
    | nameStatement =>
      exact productive_of_shift (.symbol .assign) rfl trivial (by simp [hexpression, nullable])
    | expression => exact hexpression
    | unsigned | factor => exact productive_of_shift (.intVal 0) rfl trivial (by simp [nullable])
    | operandOf l =>
      cases l <;> exact productive_of_shift (.intVal 0) rfl trivial (by simp [nullable])
    | updatable => exact productive_of_shift (.ident "") rfl trivial (by simp [nullable])
    | _ => exact absurd rfl hn

theorem exists_mem_stackWords (gs : List Goal) : ∃ w, w ∈ stackWords gs :=
  exists_mem_of_productive fun g _ => g.productive

end Goal

open Goal

/-- A word begins a word of a language. -/
def Viable (L : Language Terminal) (u : List Terminal) : Prop :=
  ∃ v, u ++ v ∈ L

/-- The word of some lexemes. -/
def Lexeme.word (ls : List Lexeme) : List Terminal :=
  ls.map (·.token.terminal)

/-- How recognition of a language should end: it accepts its words, and else finds the first lexeme
up to which the lexemes do not begin one, or the end. -/
inductive Verdict (L : Language Terminal) (ls : List Lexeme) : Ending → Prop
  | accepted : Lexeme.word ls ∈ L → Verdict L ls .accepted
  | unexpected {before : List Lexeme} {l : Lexeme} {after : List Lexeme} :
      ls = before ++ l :: after →
    Viable L (Lexeme.word before) → ¬Viable L (Lexeme.word (before ++ [l])) →
    Verdict L ls (.unexpected (some l))
  | ended : Viable L (Lexeme.word ls) → Lexeme.word ls ∉ L → Verdict L ls (.unexpected none)

theorem viable_cons {L M : Language Terminal} {a : Terminal} {u : List Terminal}
    (h : ∀ w, a :: w ∈ L ↔ w ∈ M) : Viable L (a :: u) ↔ Viable M u :=
  exists_congr fun _ => h _

theorem Verdict.cons {L M : Language Terminal} {l : Lexeme} {ls : List Lexeme} {e : Ending}
    (h : ∀ w, l.token.terminal :: w ∈ L ↔ w ∈ M) (hv : Verdict M ls e) : Verdict L (l :: ls) e := by
  cases hv with
  | accepted hmem => exact .accepted ((h _).2 hmem)
  | @unexpected before l' after hls hbefore hnot =>
    have hls : l :: ls = (l :: before) ++ l' :: after := by rw [hls, List.cons_append]
    exact .unexpected hls ((viable_cons h).2 hbefore)
      fun hv => hnot ((viable_cons h).1 hv)
  | ended hviable hnot => exact .ended ((viable_cons h).2 hviable) fun hmem => hnot ((h _).1 hmem)

theorem verdict_ofGoals {gs : List Goal} (hf : Fits (· = none) gs) (last line : Nat)
    (ls : List Lexeme) :
    Verdict (stackWords gs) ls (Trace.ofGoals .finished last gs line ls).ending := by
  induction ls generalizing gs line with
  | nil =>
    have hnil := nil_mem_stackWords hf.release
    rw [stackWords_release] at hnil
    obtain ⟨w, hw⟩ := exists_mem_stackWords gs
    simp only [Trace.ofGoals, Trace.prepend]
    split
    · exact .accepted (hnil.2 ‹_›)
    · exact .ended ⟨w, hw⟩ fun hmem => ‹¬_› (hnil.1 hmem)
  | cons l ls ih =>
    have hcons : ∀ w, _ := fun w => cons_mem_stackWords (t := l.token) (w := w) hf.release
    rw [stackWords_release] at hcons
    simp only [Trace.ofGoals, Trace.prepend]
    cases htake : (Trace.take l.token (Trace.release gs).2).2 with
    | some hs =>
      refine Verdict.cons (fun w => ?_) (ih (hf.release.take htake) l.line)
      simp [hcons, htake]
    | none =>
      obtain ⟨w, hw⟩ := exists_mem_stackWords gs
      refine .unexpected (List.nil_append _).symm ⟨w, hw⟩ fun ⟨v, hv⟩ => ?_
      simpa [htake] using (hcons _).1 hv

theorem fits_programGoals : Fits (· = none) programGoals := by
  have hfunctions : ∀ t, Leads (· = none) [statements .mainEnd, act .finish] t →
      Allows .functions t := by
    rintro t (⟨u, rfl, hu⟩ | ⟨-, h⟩)
    · exact shifts_statements hu
    · simp only [Leads, not_shifts_act, and_false, exists_false, false_or] at h
      rw [h.2]
      rfl
  have hmain : ∀ t, Leads (· = none) [actIf .functions .enterMain, statements .mainEnd,
      act .finish] t → Allows .functions t := by
    rintro t (⟨u, -, hu⟩ | ⟨-, h⟩)
    · exact absurd hu not_shifts_actIf
    · exact hfunctions t h
  refine ⟨⟨fun _ => Token.terminal_eq_keyword.1, by simp, by simp⟩, fun _ _ => rfl, trivial,
    fun _ _ => rfl, fits_sym_cons ⟨trivial, ?_, trivial, hmain, trivial, hfunctions, ?_, ?_,
      fits_act_cons fits_nil⟩⟩
  · rintro t (⟨u, rfl, hu⟩ | ⟨-, h⟩)
    · rw [shifts_functions.1 hu]
      rfl
    · exact allows_globals (hmain t h)
  · rintro (_ | _) h
    · rfl
    · cases h
  · rintro t (⟨u, -, hu⟩ | ⟨-, rfl⟩)
    · exact absurd hu not_shifts_act
    · rfl

theorem stackWords_programGoals : stackWords programGoals = grammar.language := by
  rw [← wordsOf_program, wordsOf_program_eq]
  simp [programGoals, words, Goal.sym, Token.terminal]

/-- If no step is rejected, the way the trace ends decides. -/
theorem Compiled.rejection_ofSteps {steps : List Step} {c : Compiler} {last : Nat}
    (h : (ofSteps .accepted last steps c).rejection = none) (e : Ending) :
    (ofSteps e last steps c).rejection = e.rejection? := by
  induction steps generalizing c with
  | nil => rfl
  | cons s rest ih =>
    simp only [ofSteps] at h ⊢
    split
    · rename_i heq
      rw [heq] at h
      exact ih h
    · rename_i heq
      rw [heq] at h
      cases h

/-- What recognition finds, as an outcome of compiling. -/
theorem Verdict.rejection {L : Language Terminal} {ls : List Lexeme} {e : Ending}
    (h : Verdict L ls e) :
    (e.rejection? = none ↔ Lexeme.word ls ∈ L) ∧
    (Lexeme.word ls ∉ L →
      (∃ before l after, ls = before ++ l :: after ∧ Viable L (Lexeme.word before) ∧
        ¬Viable L (Lexeme.word (before ++ [l])) ∧ e.rejection? = some (.unexpected l.description)) ∨
      (Viable L (Lexeme.word ls) ∧ e.rejection? = some (.unexpected "None"))) := by
  cases h with
  | accepted hmem => exact ⟨iff_of_true rfl hmem, fun hnot => absurd hmem hnot⟩
  | @unexpected before l after hls hbefore hnot =>
    have hmem : Lexeme.word ls ∉ L := fun hmem =>
      hnot ⟨Lexeme.word after, by simpa [hls, Lexeme.word] using hmem⟩
    exact ⟨iff_of_false (by simp [Ending.rejection?]) hmem,
      fun _ => .inl ⟨before, l, after, hls, hbefore, hnot, rfl⟩⟩
  | ended hviable hmem =>
    exact ⟨iff_of_false (by simp [Ending.rejection?]) hmem, fun _ => .inr ⟨hviable, rfl⟩⟩

/-- Performing the steps of a trace rejects none of them. -/
def Trace.IsPerformed (t : Trace) : Prop :=
  (Compiled.ofSteps .accepted t.line t.steps {}).rejection = none

instance (t : Trace) : Decidable t.IsPerformed :=
  inferInstanceAs (Decidable (_ = _))

/-- Lexemes whose actions are all performed compile exactly if they derive from the grammar.
Otherwise the first lexeme with which they begin no word of the grammar is rejected, or their
end. -/
theorem Compiled.rejection_iff_grammar {ls : Lexemes} {line : Nat} (hstop : ls.stop = .finished)
    (hsteps : (Trace.ofLexemes line ls).IsPerformed) :
    ((ofTrace (.ofLexemes line ls)).rejection = none ↔ Lexeme.word ls.list ∈ grammar.language) ∧
    (Lexeme.word ls.list ∉ grammar.language →
      (∃ before l after, ls.list = before ++ l :: after ∧
        Viable grammar.language (Lexeme.word before) ∧
        ¬Viable grammar.language (Lexeme.word (before ++ [l])) ∧
        (ofTrace (.ofLexemes line ls)).rejection = some (.unexpected l.description)) ∨
      (Viable grammar.language (Lexeme.word ls.list) ∧
        (ofTrace (.ofLexemes line ls)).rejection = some (.unexpected "None"))) := by
  have hrejection := rejection_ofSteps hsteps (Trace.ofLexemes line ls).ending
  rw [show ofTrace (.ofLexemes line ls) = ofSteps _ _ _ _ from rfl, hrejection]
  have hverdict := verdict_ofGoals fits_programGoals ls.line line ls.list
  rw [stackWords_programGoals, ← hstop] at hverdict
  exact hverdict.rejection

/-- Of the conditionals that a last branch can continue, the innermost takes it. -/
theorem Compiled.rejection_iff_grammar_branches :
    let ls := Lexemes.scan 1 "program p; if (true) { } elseif (true) { } else { }"
    ls.stop = .finished ∧ (Trace.ofLexemes 1 ls).IsPerformed ∧
      Lexeme.word ls.list ∈ grammar.language := by
  intro ls
  have hstop : ls.stop = .finished := by decide +kernel
  have hsteps : (Trace.ofLexemes 1 ls).IsPerformed := by decide +kernel
  have hnone : (ofTrace (.ofLexemes 1 ls)).rejection = none := by decide +kernel
  exact ⟨hstop, hsteps, (rejection_iff_grammar hstop hsteps).1.1 hnone⟩

end Symphony
