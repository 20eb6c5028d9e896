import Symphony.Proofs.Parsing

/-!
# What is recognised begins a tree

Recognition may stop early: at a token that cannot stand where it does, or at a character that
starts no token. Whatever is still on the stack of goals by then could be completed, since there is
something that every goal means.

**Theorem (`Trace.exists_tree_prefix`).** The events of any source begin the events of some tree.
-/

namespace Symphony

namespace Goal

/-- There is something that every goal means. -/
theorem exists_means (g : Goal) : ∃ es, g.Means es := by
  have hword : IsWord "f" := by
    refine ⟨by simp, fun c hc => ?_⟩
    obtain rfl : c = 'f' := by simpa using hc
    rfl
  cases g with
  | expect | anyName | act | actIf | check => exact ⟨_, rfl⟩
  | declarations => exact ⟨_, [], rfl⟩
  | declarator => exact ⟨_, ("", none), [], [], rfl⟩
  | declared => exact ⟨_, none, [], [], rfl⟩
  | arraySize => exact ⟨_, 0, [], [], rfl⟩
  | moreNames => exact ⟨_, [], [], rfl⟩
  | functions => exact ⟨_, [], rfl⟩
  | resultType => exact ⟨_, ⟨none, "f", [], [], .nil, hword⟩, [], rfl⟩
  | functionName result => exact ⟨_, ⟨result, "f", [], [], .nil, hword⟩, [], rfl, rfl⟩
  | parameters => exact ⟨_, [], [], .nil, [], rfl⟩
  | parameterType ds | parameterName ds | moreParameters ds =>
    -- the events depend on the parameters that were read only through their declarations
    refine ⟨[.declareLocals ds [], .endFunction], fun read hread => ⟨[], [], .nil, [], ?_⟩⟩
    rw [List.append_nil, FunctionTree.innerEvents, ← hread]
    rfl
  | statements => exact ⟨_, .nil, rfl⟩
  | nameStatement => exact ⟨_, .leave, rfl⟩
  | branches => exact ⟨_, .done, rfl⟩
  | moreBranches => exact ⟨_, .none, rfl⟩
  | expression | unsigned | operandOf | factor => exact ⟨_, .literal .int (.int 0), rfl⟩
  | tail | powerTail => exact ⟨[], .inl rfl⟩
  | chain => exact ⟨_, .nil, rfl⟩
  | reference name callable =>
    cases callable with
    | true => exact ⟨_, .reference (.variable name), rfl⟩
    | false => exact ⟨_, .variable name, rfl⟩
  | updatable => exact ⟨_, .variable "", rfl⟩
  | arguments | moreArguments => exact ⟨_, .nil, rfl⟩

theorem exists_meansAll (gs : List Goal) : ∃ es, MeansAll es gs := by
  induction gs with
  | nil => exact ⟨[], rfl⟩
  | cons g gs ih =>
    obtain ⟨xs, hx⟩ := g.exists_means
    obtain ⟨ys, hy⟩ := ih
    exact ⟨xs ++ ys, xs, ys, rfl, hx, hy⟩

end Goal

namespace Trace

open Goal

/-- The events of goals that are done at a token begin what the stack means, also if the token is
rejected. -/
theorem exists_meansAll_take (t : Token) (gs : List Goal) (h : (take t gs).2 = none) :
    ∃ es, MeansAll ((take t gs).1 ++ es) gs := by
  induction gs with
  | nil => exact ⟨[], rfl⟩
  | cons g gs ih =>
    cases hr : g.reactTo t with
    | shift => simp [take, hr] at h
    | done events =>
      simp only [take, hr] at h ⊢
      obtain ⟨es, hes⟩ := ih h
      exact ⟨es, events, _, by rw [List.append_assoc], means_of_done hr, hes⟩
    | reject =>
      simp only [take, hr]
      exact exists_meansAll (g :: gs)

theorem exists_meansAll_close (gs : List Goal) : ∃ es, MeansAll ((close gs).1 ++ es) gs := by
  induction gs with
  | nil => exact ⟨[], rfl⟩
  | cons g gs ih =>
    cases hr : g.reactToEnd with
    | done events =>
      simp only [close, hr]
      obtain ⟨es, hes⟩ := ih
      exact ⟨es, events, _, by rw [List.append_assoc], means_of_end hr, hes⟩
    | _ =>
      simp only [close, hr]
      exact exists_meansAll (g :: gs)

/-- The events of a trace begin what its goals mean. -/
theorem exists_meansAll_ofGoals {stop : Stop} {last line : Nat} {gs : List Goal} {ls : List Lexeme}
    (hls : ∀ l ∈ ls, l.token.IsSpelled) :
    ∃ es, MeansAll ((ofGoals stop last gs line ls).events ++ es) gs := by
  induction ls generalizing gs line with
  | nil =>
    unfold ofGoals
    simp only [events_prepend, List.append_assoc]
    cases stop with
    | finished =>
      obtain ⟨es, hes⟩ := exists_meansAll_close (release gs).2
      refine ⟨es, meansAll_release ?_⟩
      simp only [events_prepend, List.append_assoc]
      exact hes
    | illegal | overlong =>
      obtain ⟨es, hes⟩ := exists_meansAll (release gs).2
      exact ⟨es, meansAll_release hes⟩
  | cons l ls ih =>
    obtain ⟨hl, hls⟩ := List.forall_mem_cons.1 hls
    unfold ofGoals
    simp only [events_prepend, List.append_assoc]
    cases htake : (take l.token (release gs).2).2 with
    | some hs =>
      obtain ⟨es, hes⟩ := @ih l.line hs hls
      exact ⟨es, meansAll_release (meansAll_take hl (Prod.ext rfl htake) hes)⟩
    | none =>
      obtain ⟨es, hes⟩ := exists_meansAll_take l.token (release gs).2 htake
      exact ⟨es, meansAll_release hes⟩

theorem exists_tree_prefix (line : Nat) (source : String) :
    ∃ p : Tree, (ofSource line source).events <+: p.events := by
  have hmeans : ∃ es, MeansAll ((ofSource line source).events ++ es) programGoals :=
    exists_meansAll_ofGoals isSpelled_of_mem_scan
  obtain ⟨es, hes⟩ := hmeans
  obtain ⟨p, hp⟩ := exists_tree_of_meansAll hes
  exact ⟨p, es, hp.symm⟩

end Trace

end Symphony
