import LinearProgram.Proofs.IterationLimit

namespace LinearProgram

namespace Tableau

variable {α : Type} [Scalar α] {m n : ℕ}

section Concludes

variable {t u : Tableau α m n} {k stalled limit : ℕ} {status : Status}

-- The number of steps is the last limit that stops the run.
theorem concludes_of_runFrom (hlimit : (t.runFrom k stalled).1 = .iterationLimit)
    (hends : (t.runFrom (k + 1) stalled).1 ≠ .iterationLimit) :
    Concludes k stalled t (t.runFrom (k + 1) stalled).1 (t.runFrom (k + 1) stalled).2 := by
  obtain ⟨l, hl, h⟩ := exists_concludes (k + 1) stalled t hends
  have hle : k ≤ l := by
    by_contra hlt
    rw [h.runFrom_of_lt (not_le.mp hlt)] at hlimit
    exact hends hlimit
  obtain rfl : l = k := Nat.le_antisymm (Nat.lt_succ_iff.mp hl) hle
  exact h

theorem runFrom_eq_iff (hends : status ≠ .iterationLimit) :
    t.runFrom limit stalled = (status, u) ↔ ∃ k < limit, Concludes k stalled t status u := by
  constructor
  · intro h
    obtain ⟨k, hk, hconcludes⟩ := exists_concludes limit stalled t (by rw [h]; exact hends)
    rw [h] at hconcludes
    exact ⟨k, hk, hconcludes⟩
  · rintro ⟨k, hk, h⟩
    exact h.runFrom_of_lt hk

end Concludes

-- A run without a limit that ends by itself after `k` steps ends in the same way under every limit
-- above `k`. A limit of `k` or less stops it, one of `k` itself at the very tableau it would end
-- on.
theorem run_ends_iff_steps_lt_limit (t : Tableau α m n) :
    (∀ status u, status ≠ .iterationLimit →
      (t.run (Solver.ofLimit none).maxIterations = (status, u) ↔
        ∃ k < 2 ^ 64 - 1, Concludes k 0 t status u)) ∧
    ∀ k status u, Concludes k 0 t status u →
      (∀ limit, k < limit → t.run limit = (status, u)) ∧
      (∀ limit ≤ k, (t.run limit).1 = .iterationLimit ∧ t.Spends 0 limit) ∧
      t.run k = (.iterationLimit, u) :=
  ⟨fun _ _ hends => runFrom_eq_iff hends, fun _ _ _ h => ⟨fun _ hlt => h.runFrom_of_lt hlt,
    fun limit hle => ⟨(t.runFrom_eq_iterationLimit_iff 0 limit).mpr (h.spends_of_le hle),
      h.spends_of_le hle⟩, h.runFrom_self⟩⟩

-- The first step takes a column to its upper bound, the second one is a pivot, and no third one is
-- left to do.
theorem run_ends_iff_steps_lt_limit_of_two_steps :
    ∃ t u : Tableau ℚ 1 3,
      start? #v[#v[3, 2, 1]] #v[18] #v[3, 5, 0] #v[0, 0, 0] #v[some 4, some 6, none] #v[2] = .ok t ∧
      Concludes 2 0 t .optimal u ∧ u.values = #v[2, 6, 0] ∧
      t.run (Solver.ofLimit none).maxIterations = (.optimal, u) ∧ t.run 3 = (.optimal, u) ∧
      t.run 2 = (.iterationLimit, u) := by
  obtain ⟨t, hstart, hcheck⟩ : ∃ t : Tableau ℚ 1 3,
      start? #v[#v[3, 2, 1]] #v[18] #v[3, 5, 0] #v[0, 0, 0] #v[some 4, some 6, none] #v[2] = .ok t ∧
        decide ((t.run 2).1 = .iterationLimit ∧ (t.run 3).1 = .optimal ∧
          (t.run 3).2.values = #v[2, 6, 0]) = true :=
    exists_eq_ok_and (by decide +kernel)
  obtain ⟨hlimit, hoptimal, hvalues⟩ := of_decide_eq_true hcheck
  have h : Concludes 2 0 t .optimal (t.run 3).2 := hoptimal ▸ concludes_of_runFrom hlimit
    (by rw [show t.runFrom (2 + 1) 0 = t.run 3 from rfl, hoptimal]; decide)
  obtain ⟨hunlimited, hlimits⟩ := run_ends_iff_steps_lt_limit t
  obtain ⟨habove, _, hself⟩ := hlimits 2 .optimal _ h
  exact ⟨t, _, hstart, h, hvalues, (hunlimited _ _ (by decide)).mpr ⟨2, by norm_num, h⟩,
    habove 3 (by decide), hself⟩

-- One step is all that the run has to do, and one iteration is not enough for it.
theorem iterationLimit_after_last_step :
    ∃ t u : Tableau ℚ 1 3,
      start? #v[#v[1, 1, 1]] #v[4] #v[1, 0, 0] #v[0, 0, 0] #v[some 1, none, none] #v[2] = .ok t ∧
      Concludes 1 0 t .optimal u ∧ (t.run 1).1 = .iterationLimit := by
  obtain ⟨t, hstart, hcheck⟩ : ∃ t : Tableau ℚ 1 3,
      start? #v[#v[1, 1, 1]] #v[4] #v[1, 0, 0] #v[0, 0, 0] #v[some 1, none, none] #v[2] = .ok t ∧
        decide ((t.run 1).1 = .iterationLimit ∧ (t.run 2).1 = .optimal) = true :=
    exists_eq_ok_and (by decide +kernel)
  obtain ⟨hlimit, hoptimal⟩ := of_decide_eq_true hcheck
  have h : Concludes 1 0 t .optimal (t.run 2).2 := hoptimal ▸ concludes_of_runFrom hlimit
    (by rw [show t.runFrom (1 + 1) 0 = t.run 2 from rfl, hoptimal]; decide)
  exact ⟨t, _, hstart, h, hlimit⟩

end Tableau

end LinearProgram
