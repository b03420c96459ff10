import LinearProgram.Proofs.Tableau.Drift

namespace LinearProgram

namespace Tableau

variable {m n : ℕ}

-- The tolerance takes no entry of the column for zero that is not, and no two lengths for equal
-- that are not.
structure ClearColumn (t : Tableau ℚ m n) (q : Fin n) : Prop where
  entries : ∀ i, Clear (t.entry i q)
  lengths : ∀ a ∈ t.candidates q, ∀ b ∈ t.candidates q, Clear (a - b)

instance (t : Tableau ℚ m n) (q : Fin n) : Decidable (t.ClearColumn q) :=
  decidable_of_iff
    ((∀ i, Clear (t.entry i q)) ∧ ∀ a ∈ t.candidates q, ∀ b ∈ t.candidates q, Clear (a - b))
    ⟨fun ⟨he, hl⟩ => ⟨he, hl⟩, fun h => ⟨h.1, h.2⟩⟩

-- Every column that enters on the way is such a column.
def RunsClear (iterations stalled : ℕ) (t : Tableau ℚ m n) : Prop :=
  ∀ k < iterations, ∀ stalled' u, Goes k stalled t stalled' u →
    ∀ q ∈ u.entering? (stallLimit ≤ stalled'), u.ClearColumn q

section Run

variable {t : Tableau ℚ m n} {iterations stalled : ℕ}

theorem runsClear_succ_iff :
    RunsClear (iterations + 1) stalled t ↔
      (∀ q ∈ t.entering? (stallLimit ≤ stalled), t.ClearColumn q) ∧
      ∀ degenerate, (t.iterate (stallLimit ≤ stalled)).1 = .pivoted degenerate →
        RunsClear iterations (if degenerate then stalled + 1 else 0)
          (t.iterate (stallLimit ≤ stalled)).2 := by
  constructor
  · intro h
    refine ⟨h 0 (Nat.succ_pos _) stalled t (.refl _ _), fun degenerate hstep k hk _ _ hgoes => ?_⟩
    exact h (k + 1) (Nat.succ_lt_succ hk) _ _ (.step (Prod.ext hstep rfl) hgoes)
  · rintro ⟨hfirst, hrest⟩ k hk stalled' u hgoes
    cases hgoes with
    | refl => exact hfirst
    | @step k _ _ _ _ _ degenerate first rest =>
      have hnext := hrest degenerate (congrArg Prod.fst first)
      rw [first] at hnext
      exact hnext k (Nat.lt_of_succ_lt_succ hk) _ _ rest

instance decidableRunsClear : (iterations stalled : ℕ) → (t : Tableau ℚ m n) →
    Decidable (t.RunsClear iterations stalled)
  | 0, _, _ => isTrue fun _ hk => absurd hk (Nat.not_lt_zero _)
  | iterations + 1, _, _ =>
    have := decidableRunsClear iterations
    decidable_of_iff _ runsClear_succ_iff.symm

end Run

section Step

variable {t : Tableau ℚ m n} {q : Fin n} {length : ℚ}

theorem ClearColumn.sharp (h : t.ClearColumn q) : t.Sharp q 0 := by
  intro a ha b hb hle
  have hdiff := (h.lengths a ha b hb).nonpos (by linarith)
  linarith

-- A movement that no limit is shorter than takes no row past its bounds.
theorem ClearColumn.passed_le (h : t.ClearColumn q) (hacc : t.Accurate q 0 length)
    (hlen : 0 ≤ length) (i : Fin m) : t.passed q length i ≤ 0 := by
  refine passed_le_of_accurate hacc hlen le_rfl (by simp) fun hsmall => ?_
  have hzero : t.entry i q = 0 := (h.entries i).resolve_right (not_lt.mpr hsmall)
  rw [hzero, abs_zero, zero_mul]

theorem ClearColumn.overrun_eq_zero (h : t.ClearColumn q) (hacc : t.Accurate q 0 length)
    (hlen : 0 ≤ length) : largest (t.overrun q length) = 0 :=
  largest_eq_zero fun i => (min_le_right _ _).trans (h.passed_le hacc hlen i)

theorem drift_eq_zero (hf : t.Overshoot 0) {bland : Bool}
    (hclear : ∀ q ∈ t.entering? bland, t.ClearColumn q) : t.drift 0 (t.move bland) = 0 := by
  have hmeasured : t.Measured 0 (t.move bland) :=
    t.move_measured le_rfl fun q hq => (hclear q hq).sharp
  have hlegal := t.move_legal bland
  have hcolumn : ∀ q, t.entering? bland = some q → t.ClearColumn q := hclear
  unfold move at hmeasured hlegal ⊢
  cases he : t.entering? bland with
  | none => rfl
  | some q =>
    have hq := hcolumn q he
    rw [he] at hmeasured hlegal
    simp only at hmeasured hlegal ⊢
    cases hv : t.leaving q with
    | never => rfl
    | otherBound length =>
      rw [hv] at hmeasured hlegal
      have hlarge := (t.isMovable_iff q).mp ((t.canEnter_iff q).mp hlegal.1).2.1 length hlegal.2
      change 0 + largest (t.overrun q length) = 0
      rw [hq.overrun_eq_zero hmeasured (eps_nonneg.trans hlarge.le), add_zero]
    | row r atUpper length =>
      rw [hv] at hmeasured hlegal
      obtain ⟨hlen, hquotient⟩ := hf.length_eq_quotient hlegal.2
      have hexcess : t.excess q length ≤ 0 :=
        excess_le le_rfl fun s hs => by simpa using hmeasured.span s hs
      change t.carried 0 q length (length - t.quotient r q atUpper) = 0
      unfold carried
      rw [← hquotient, sub_self, neg_zero, hq.overrun_eq_zero hmeasured hlen,
        largest_eq_zero t.passed_zero_le, add_zero, add_zero, max_eq_left hexcess, max_self]

end Step

-- A run that uses no tolerance stays within the bounds.
theorem driftFrom_eq_zero {t : Tableau ℚ m n} {iterations stalled : ℕ} (hf : t.Overshoot 0)
    (hclear : t.RunsClear iterations stalled) : driftFrom iterations stalled t 0 = 0 := by
  induction iterations generalizing stalled t with
  | zero => rfl
  | succ iterations ih =>
    obtain ⟨hfirst, hrest⟩ := runsClear_succ_iff.mp hclear
    have hzero := drift_eq_zero hf hfirst
    have hnext := hf.apply le_rfl (t.move_legal (stallLimit ≤ stalled))
      (t.move_measured eps_nonneg fun q _ => t.sharp_eps q)
    rw [hzero] at hnext
    unfold driftFrom
    split
    · rename_i degenerate u first
      have hu := hrest degenerate (congrArg Prod.fst first)
      have happly : t.apply (t.move (stallLimit ≤ stalled)) = u := congrArg Prod.snd first
      rw [first] at hu
      rw [happly] at hnext
      rw [hzero]
      exact ih hnext hu
    · rfl

end Tableau

end LinearProgram
