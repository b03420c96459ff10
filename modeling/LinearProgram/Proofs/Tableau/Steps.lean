import Mathlib
import LinearProgram.Tableau.Run

namespace LinearProgram

namespace Tableau

variable {α : Type} [Scalar α] {m n : ℕ}

-- `k` steps of a run in a row, none of which ends it. The numbers beside the tableaux count the
-- steps of no length as the run does.
inductive Goes : ℕ → ℕ → Tableau α m n → ℕ → Tableau α m n → Prop
  | refl (stalled : ℕ) (t : Tableau α m n) : Goes 0 stalled t stalled t
  | step {k stalled stalled' : ℕ} {t u v : Tableau α m n} {degenerate : Bool}
      (first : t.iterate (stallLimit ≤ stalled) = (.pivoted degenerate, u))
      (rest : Goes k (if degenerate then stalled + 1 else 0) u stalled' v) :
      Goes (k + 1) stalled t stalled' v

-- The run makes `k` steps and ends by itself in the iteration after them, on the tableau that the
-- steps have led to.
inductive Concludes (k stalled : ℕ) (t : Tableau α m n) : Status → Tableau α m n → Prop
  | optimal {stalled' : ℕ} {u : Tableau α m n} (steps : Goes k stalled t stalled' u)
      (last : u.iterate (stallLimit ≤ stalled') = (.optimal, u)) : Concludes k stalled t .optimal u
  | unbounded {stalled' : ℕ} {u : Tableau α m n} (steps : Goes k stalled t stalled' u)
      (last : u.iterate (stallLimit ≤ stalled') = (.unbounded, u)) :
      Concludes k stalled t .unbounded u

-- Each of the first `count` steps leaves the run another one.
def Spends (t : Tableau α m n) (stalled count : ℕ) : Prop :=
  ∃ stalled' u, Goes count stalled t stalled' u

variable {t u v : Tableau α m n} {k limit stalled stalled' : ℕ} {status : Status}

-- An iteration that does no step leaves the tableau as it is.
theorem eq_of_iterate {bland : Bool} {step : Step} (h : t.iterate bland = (step, u))
    (hstep : ∀ degenerate, step ≠ .pivoted degenerate) : u = t := by
  obtain ⟨rfl, rfl⟩ := Prod.mk.inj h
  cases hmove : t.move bland with
  | optimal => rfl
  | unbounded q => rfl
  | flip q length =>
    rw [hmove] at hstep
    exact absurd rfl (hstep (length < eps))
  | pivot r q atUpper length =>
    rw [hmove] at hstep
    exact absurd rfl (hstep (length < eps))

-- A run goes on from where its steps have led, with the iterations that they have left.
theorem Goes.runFrom (h : Goes k stalled t stalled' u) (iterations : ℕ) :
    t.runFrom (iterations + k) stalled = u.runFrom iterations stalled' := by
  induction h with
  | refl stalled t => rfl
  | step first _ ih =>
    rw [← Nat.add_assoc, Tableau.runFrom, first]
    exact ih

theorem Goes.spends_of_le (h : Goes k stalled t stalled' u) {count : ℕ} (hle : count ≤ k) :
    t.Spends stalled count := by
  induction h generalizing count with
  | refl stalled t =>
    obtain rfl := Nat.le_zero.mp hle
    exact ⟨stalled, t, .refl _ _⟩
  | @step k stalled stalled' t u v degenerate first rest ih =>
    cases count with
    | zero => exact ⟨stalled, t, .refl _ _⟩
    | succ count =>
      obtain ⟨last, w, hgoes⟩ := ih (Nat.le_of_succ_le_succ hle)
      exact ⟨last, w, .step first hgoes⟩

theorem Concludes.step {degenerate : Bool}
    (first : t.iterate (stallLimit ≤ stalled) = (.pivoted degenerate, u))
    (rest : Concludes k (if degenerate then stalled + 1 else 0) u status v) :
    Concludes (k + 1) stalled t status v := by
  cases rest with
  | optimal steps last => exact .optimal (.step first steps) last
  | unbounded steps last => exact .unbounded (.step first steps) last

theorem Concludes.exists_goes (h : Concludes k stalled t status u) :
    ∃ stalled', Goes k stalled t stalled' u := by
  cases h with
  | optimal steps _ => exact ⟨_, steps⟩
  | unbounded steps _ => exact ⟨_, steps⟩

theorem Concludes.ne_iterationLimit (h : Concludes k stalled t status u) :
    status ≠ .iterationLimit := by
  cases h <;> decide

-- Either a run ends by itself, or each of its iterations does a step.
theorem runFrom_cases (iterations stalled : ℕ) (t : Tableau α m n) :
    (∃ k < iterations, Concludes k stalled t (t.runFrom iterations stalled).1
      (t.runFrom iterations stalled).2) ∨
    (t.runFrom iterations stalled).1 = .iterationLimit ∧
      ∃ stalled', Goes iterations stalled t stalled' (t.runFrom iterations stalled).2 := by
  induction iterations generalizing stalled t with
  | zero => exact .inr ⟨rfl, stalled, .refl _ _⟩
  | succ iterations ih =>
    unfold runFrom
    split
    · rename_i u h
      obtain rfl := eq_of_iterate h nofun
      exact .inl ⟨0, Nat.succ_pos _, .optimal (.refl _ _) h⟩
    · rename_i u h
      obtain rfl := eq_of_iterate h nofun
      exact .inl ⟨0, Nat.succ_pos _, .unbounded (.refl _ _) h⟩
    · rename_i degenerate u first
      rcases ih (if degenerate then stalled + 1 else 0) u with
        ⟨k, hk, rest⟩ | ⟨hlimit, stalled', rest⟩
      · exact .inl ⟨k + 1, Nat.succ_lt_succ hk, rest.step first⟩
      · exact .inr ⟨hlimit, stalled', .step first rest⟩

theorem runFrom_eq_iterationLimit_iff (t : Tableau α m n) (stalled iterations : ℕ) :
    (t.runFrom iterations stalled).1 = .iterationLimit ↔ t.Spends stalled iterations := by
  constructor
  · intro h
    rcases runFrom_cases iterations stalled t with ⟨k, _, hends⟩ | ⟨_, stalled', hgoes⟩
    · exact absurd h hends.ne_iterationLimit
    · exact ⟨stalled', _, hgoes⟩
  · rintro ⟨stalled', u, hgoes⟩
    have hrun := hgoes.runFrom 0
    rw [Nat.zero_add] at hrun
    rw [hrun]
    rfl

-- A run that is not stopped by its limit has made some number of steps below it.
theorem exists_concludes (iterations stalled : ℕ) (t : Tableau α m n)
    (hends : (t.runFrom iterations stalled).1 ≠ .iterationLimit) :
    ∃ k < iterations, Concludes k stalled t (t.runFrom iterations stalled).1
      (t.runFrom iterations stalled).2 :=
  (runFrom_cases iterations stalled t).resolve_right fun h => hends h.1

-- With one iteration for each step a run stops where it would have ended.
theorem Concludes.runFrom_self (h : Concludes k stalled t status u) :
    t.runFrom k stalled = (.iterationLimit, u) := by
  obtain ⟨stalled', hgoes⟩ := h.exists_goes
  have hrun := hgoes.runFrom 0
  rw [Nat.zero_add] at hrun
  rw [hrun]
  rfl

theorem Concludes.runFrom_of_lt (h : Concludes k stalled t status u) (hlt : k < limit) :
    t.runFrom limit stalled = (status, u) := by
  obtain ⟨more, rfl⟩ : ∃ more, limit = more + 1 + k := ⟨limit - k - 1, by omega⟩
  cases h with
  | optimal steps last => rw [steps.runFrom, runFrom, last]
  | unbounded steps last => rw [steps.runFrom, runFrom, last]

theorem Concludes.spends_of_le (h : Concludes k stalled t status u) (hle : limit ≤ k) :
    t.Spends stalled limit := by
  obtain ⟨_, hgoes⟩ := h.exists_goes
  exact hgoes.spends_of_le hle

-- A run that ends by itself does not notice a larger limit.
theorem runFrom_of_le {iterations more : ℕ} (hle : iterations ≤ more) (t : Tableau α m n)
    (stalled : ℕ) (hends : (t.runFrom iterations stalled).1 ≠ .iterationLimit) :
    t.runFrom more stalled = t.runFrom iterations stalled := by
  obtain ⟨k, hk, h⟩ := exists_concludes iterations stalled t hends
  exact h.runFrom_of_lt (hk.trans_le hle)

end Tableau

end LinearProgram
