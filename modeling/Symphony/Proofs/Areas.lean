import Mathlib.Tactic.Common
import Symphony.Proofs.Places

/-!
# Areas of memory

If no array has a negative size and no region is used up, every reservation has cells of its own. A
cell that was handed out before a point in the history of reservations (`Counters.Handed`) is then
none that was handed out after it (`Counters.Free`).
-/

namespace Symphony

variable {a : Int} {t : Ty} {rs ss : List Reservation} {N' : Scope → Prop} {s : Sector}

namespace Sector

/-- The addresses of a region are found in it. -/
theorem locate?_eq_some (hlo : s.regionStart t ≤ a) (hhi : a < s.regionStop t) :
    locate? a = some (s, t) := by
  have hof : of? a = some s := by
    cases s <;> cases t <;>
      simp only [regionStart, regionStop, width, start, stop, Ty.code] at hlo hhi <;>
      simp only [of?, start, stop] <;>
      grind
  have hcode : ((a - s.start) / s.width).toNat = t.code := by
    cases s <;> cases t <;>
      simp only [regionStart, regionStop, width, start, stop, Ty.code] at hlo hhi ⊢ <;>
      omega
  simp [locate?, hof, hcode, Ty.ofCode?_code]

end Sector

namespace Counters

theorem next_reserve_self (k : Counters) (r : Reservation) :
    (k.reserve r).next r.sector r.ty = k.next r.sector r.ty + r.size := by
  simp [next, reserve]

theorem next_reserve_of_ne (k : Counters) (r : Reservation) (h : ¬(s = r.sector ∧ t = r.ty)) :
    (k.reserve r).next s t = k.next s t := by
  by_cases hs : s = r.sector
  · subst hs
    rw [next, reserve, PerSector.get_set_self, PerTy.get_set_of_ne _ _ fun ht => h ⟨rfl, ht⟩, next]
  · rw [next, reserve, PerSector.get_set_of_ne _ _ hs, next]

theorem next_le_reserve (k : Counters) {r : Reservation} (hr : 0 ≤ r.size) (s : Sector) (t : Ty) :
    k.next s t ≤ (k.reserve r).next s t := by
  by_cases h : s = r.sector ∧ t = r.ty
  · obtain ⟨rfl, rfl⟩ := h
    rw [next_reserve_self]
    omega
  · exact Int.le_of_eq (next_reserve_of_ne k r h).symm

theorem next_after_le (hss : ∀ r ∈ ss, 0 ≤ r.size) (s : Sector) (t : Ty) :
    (after rs).next s t ≤ (after (rs ++ ss)).next s t := by
  induction ss generalizing rs with
  | nil => exact Int.le_of_eq (by rw [List.append_nil])
  | cons r ss ih =>
    rw [← List.singleton_append, ← List.append_assoc]
    refine Int.le_trans ?_ (ih fun r' hr' => hss r' (List.mem_cons_of_mem _ hr'))
    rw [after_append]
    exact next_le_reserve _ (hss r List.mem_cons_self) s t

theorem next_initial (s : Sector) (t : Ty) : (after []).next s t = s.regionStart t := by
  simp [after, next, initial]

/-- A cell that was handed out before the counters got here. -/
def Handed (k : Counters) (a : Int) : Prop :=
  ∃ s t, Sector.locate? a = some (s, t) ∧ a < k.next s t

/-- A cell that was not handed out before the counters got here. -/
def Free (k : Counters) (a : Int) : Prop :=
  ∃ s t, Sector.locate? a = some (s, t) ∧ k.next s t ≤ a

theorem Handed.not_free {k : Counters} (h : k.Handed a) : ¬k.Free a := by
  rintro ⟨s, t, hloc, hle⟩
  obtain ⟨s', t', hloc', hlt⟩ := h
  obtain ⟨rfl, rfl⟩ : s' = s ∧ t' = t := by simpa [hloc] using hloc'.symm
  omega

end Counters

/-- No array has a negative size, and no region is used up. -/
structure Roomy (rs : List Reservation) : Prop where
  sizes : ∀ r ∈ rs, 0 ≤ r.size
  fits : ∀ s t, (Counters.after rs).next s t ≤ s.regionStop t

namespace Roomy

variable {before later : List Reservation} {r : Reservation}

theorem start_le (h : Roomy rs) (s : Sector) (t : Ty) :
    s.regionStart t ≤ (Counters.after rs).next s t := by
  rw [← Counters.next_initial, ← List.nil_append rs]
  exact Counters.next_after_le h.sizes s t

theorem of_append (h : Roomy (rs ++ ss)) : Roomy rs where
  sizes r hr := h.sizes r (List.mem_append_left _ hr)
  fits s t := Int.le_trans
    (Counters.next_after_le (fun r hr => h.sizes r (List.mem_append_right _ hr)) s t) (h.fits s t)

/-- The cells of a reservation end where the counter stands after it. -/
theorem stop_le (h : Roomy (before ++ r :: later)) :
    (Counters.after before).next r.sector r.ty + r.size ≤
      (Counters.after (before ++ r :: later)).next r.sector r.ty := by
  rw [← Counters.next_reserve_self, ← Counters.after_append, List.append_cons before r later]
  have hlater : ∀ r' ∈ later, 0 ≤ r'.size := fun r' hr' => h.sizes r' (by simp [hr'])
  exact Counters.next_after_le hlater _ _

/-- The cells of a reservation are in the region that it was made in. -/
theorem locate (h : Roomy (before ++ r :: later))
    (hlo : (Counters.after before).next r.sector r.ty ≤ a)
    (hhi : a < (Counters.after before).next r.sector r.ty + r.size) :
    Sector.locate? a = some (r.sector, r.ty) := by
  refine Sector.locate?_eq_some (Int.le_trans (h.of_append.start_le _ _) hlo) ?_
  have h₁ := h.stop_le
  have h₂ := h.fits r.sector r.ty
  omega

theorem handed (h : Roomy (before ++ r :: later))
    (hlo : (Counters.after before).next r.sector r.ty ≤ a)
    (hhi : a < (Counters.after before).next r.sector r.ty + r.size) :
    (Counters.after (before ++ r :: later)).Handed a :=
  ⟨r.sector, r.ty, h.locate hlo hhi, Int.lt_of_lt_of_le hhi h.stop_le⟩

/-- What is reserved later is beyond what was reserved before. -/
theorem not_both {mid : List Reservation} {r' : Reservation}
    (h : Roomy (before ++ r :: (mid ++ r' :: later)))
    (hlo : (Counters.after before).next r.sector r.ty ≤ a)
    (hhi : a < (Counters.after before).next r.sector r.ty + r.size)
    (hlo' : (Counters.after (before ++ r :: mid)).next r'.sector r'.ty ≤ a)
    (hhi' : a < (Counters.after (before ++ r :: mid)).next r'.sector r'.ty + r'.size) : False := by
  have h' : Roomy ((before ++ r :: mid) ++ r' :: later) := by simpa using h
  have hloc := h.locate hlo hhi
  rw [h'.locate hlo' hhi'] at hloc
  obtain ⟨hs, ht⟩ := Prod.mk.inj (Option.some.inj hloc)
  have hstop := h'.of_append.stop_le
  rw [hs, ht] at hlo'
  omega

/-- Reservations that share a cell are the same. -/
theorem eq_of_mem {before' later' : List Reservation} {r' : Reservation} (h : Roomy rs)
    (hr : rs = before ++ r :: later) (hr' : rs = before' ++ r' :: later')
    (hlo : (Counters.after before).next r.sector r.ty ≤ a)
    (hhi : a < (Counters.after before).next r.sector r.ty + r.size)
    (hlo' : (Counters.after before').next r'.sector r'.ty ≤ a)
    (hhi' : a < (Counters.after before').next r'.sector r'.ty + r'.size) :
    before = before' ∧ r = r' := by
  rcases List.append_eq_append_iff.1 (hr.symm.trans hr') with ⟨xs, rfl, hxs⟩ | ⟨xs, rfl, hxs⟩
  · cases xs with
    | nil => exact ⟨(List.append_nil _).symm, (List.cons.inj hxs).1⟩
    | cons x xs =>
      obtain ⟨rfl, rfl⟩ := List.cons.inj hxs
      subst hr
      exact (h.not_both hlo hhi hlo' hhi').elim
  · cases xs with
    | nil => exact ⟨List.append_nil _, (List.cons.inj hxs).1.symm⟩
    | cons x xs =>
      obtain ⟨rfl, rfl⟩ := List.cons.inj hxs
      subst hr'
      exact (h.not_both hlo' hhi' hlo hhi).elim

end Roomy

/-- The cell of an operand is in a region of its type. -/
theorem Given.locate (h : Given rs t (.num a)) (hr : Roomy rs) :
    ∃ s, Sector.locate? a = some (s, t) := by
  cases h with
  | @num _ _ s _ h =>
    subst h
    exact ⟨s, hr.locate (Int.le_refl _) (Int.lt_succ _)⟩

/-- The cell of an operand has been handed out. -/
theorem Given.handed (h : Given rs t (.num a)) (hr : Roomy rs) : (Counters.after rs).Handed a := by
  cases h with
  | num h =>
    subst h
    exact hr.handed (Int.le_refl _) (Int.lt_succ _)

namespace Compiler

/-- No region is used up. -/
def Fits (c : Compiler) : Prop :=
  ∀ s t, c.counters.next s t ≤ s.regionStop t

instance (c : Compiler) : Decidable c.Fits :=
  decidable_of_iff (∀ s ∈ Sector.all, ∀ t ∈ Ty.all, c.counters.next s t ≤ s.regionStop t)
    ⟨fun h s t => h s (by cases s <;> decide) t (by cases t <;> decide), fun h s _ t _ => h s t⟩

/-- A state of the compiler that some reservations have led to, none of a negative size. -/
def Reached (N : Scope → Prop) (rs : List Reservation) (c : Compiler) : Prop :=
  (∃ bs, Placed N rs bs c ∧ (c.quads.size : Int) ∈ bs) ∧ ∀ r ∈ rs, 0 ≤ r.size

namespace Reached

variable {N : Scope → Prop} {c c' : Compiler}

theorem counters (h : Reached N rs c) : c.counters = Counters.after rs := by
  obtain ⟨⟨bs, hp, -⟩, -⟩ := h
  exact hp.counters

theorem weaken (h : Reached N rs c) (hN : ∀ s, N s → N' s) : Reached N' rs c := by
  obtain ⟨⟨bs, hp, hsize⟩, hpos⟩ := h
  exact ⟨⟨bs, hp.weaken hN, hsize⟩, hpos⟩

theorem empty (hnone : N none) : Reached N [] {} :=
  ⟨⟨[0], placed_empty hnone, by simp⟩, by simp⟩

/-- More events lead further. -/
theorem runs {es : List Event} (h : Reached N rs c) (hr : TidyRuns es c c') (hnone : N none)
    (hname : ∀ result name, .defineFunction result name ∈ es → N (some name))
    (hpos : Event.Sized es) : ∃ ss, Reached N (rs ++ ss) c' := by
  obtain ⟨⟨bs, hp, hsize⟩, hrs⟩ := h
  obtain ⟨ss, bs', hp', hsize', hss⟩ := hr.placed hp hsize hnone hname
  refine ⟨ss, ⟨bs' ++ bs, hp', hsize'⟩, List.forall_mem_append.2 ⟨hrs, fun r hr => ?_⟩⟩
  rcases hss r hr with h1 | ⟨e, he, hn⟩
  · rw [h1]
    decide
  · exact hpos e he _ hn

theorem next_le (h : Reached N rs c) (h' : Reached N' (rs ++ ss) c') (s : Sector) (t : Ty) :
    c.counters.next s t ≤ c'.counters.next s t := by
  rw [h.counters, h'.counters]
  exact Counters.next_after_le (fun r hr => h'.2 r (List.mem_append_right _ hr)) s t

theorem start_le (h : Reached N rs c) (s : Sector) (t : Ty) :
    s.regionStart t ≤ c.counters.next s t := by
  rw [h.counters, ← Counters.next_initial, ← List.nil_append rs]
  exact Counters.next_after_le h.2 s t

theorem fits (h : Reached N rs c) (h' : Reached N' (rs ++ ss) c') (hfits : c'.Fits) : c.Fits :=
  fun s t => Int.le_trans (h.next_le h' s t) (hfits s t)

theorem roomy (h : Reached N rs c) (hfits : c.Fits) : Roomy rs :=
  ⟨h.2, fun s t => by rw [← h.counters]; exact hfits s t⟩

theorem given (h : Reached N rs c) (hfits : c.Fits) (hg : Given rs t (.num a)) :
    c.counters.Handed a := by
  rw [h.counters]
  exact hg.handed (h.roomy hfits)

/-- A cell between two states of the counters. -/
theorem locate (h : Reached N rs c) (hfits : c'.Fits) (hlo : c.counters.next s t ≤ a)
    (hhi : a < c'.counters.next s t) : Sector.locate? a = some (s, t) :=
  Sector.locate?_eq_some (Int.le_trans (h.start_le s t) hlo) (Int.lt_of_lt_of_le hhi (hfits s t))

end Reached

end Compiler

end Symphony
