import LinearProgram.Proofs.Acceptance
import LinearProgram.Proofs.Solving

namespace LinearProgram

section Conclusive

variable {α β γ : Type}

-- Any answer but that the limit was reached.
def Conclusive (answer : Except (Error α) β) : Prop :=
  ∀ limit, answer ≠ .error (.iterationLimit limit)

-- A conclusive answer is the other one too.
def Settles (answer other : Except (Error α) β) : Prop :=
  Conclusive answer → other = answer

theorem conclusive_ok (b : β) : Conclusive (.ok b : Except (Error α) β) :=
  fun _ h => nomatch h

theorem Conclusive.bind {x : Except (Error α) β} {f : β → Except (Error α) γ}
    (hx : Conclusive x) (hf : ∀ b, Conclusive (f b)) : Conclusive (x >>= f) := by
  intro limit h
  rcases bind_eq_error.mp h with h | ⟨b, _, h⟩
  · exact hx limit h
  · exact hf b limit h

theorem Settles.refl (answer : Except (Error α) β) : Settles answer answer :=
  fun _ => rfl

theorem Settles.bind {x y : Except (Error α) β} {f g : β → Except (Error α) γ}
    (hx : Settles x y) (hf : ∀ b, Settles (f b) (g b)) : Settles (x >>= f) (y >>= g) := by
  intro h
  cases x with
  | error e =>
    obtain rfl := hx fun limit he => h limit (he ▸ rfl)
    rfl
  | ok b =>
    obtain rfl := hx (conclusive_ok b)
    exact hf b h

end Conclusive

variable {α : Type} [Scalar α]

-- The stages before the phases do not count iterations.
section Stages

theorem normal_conclusive (m : Model α) : Conclusive (Normal.ofModel m) := by
  intro limit h
  rcases Normal.ofModel_eq_error_cases h with he | he | ⟨_, he⟩ <;> exact absurd he (by simp)

theorem standardForm_conclusive (m : Model α) : Conclusive (StandardForm.ofModel m) := by
  refine (normal_conclusive m).bind fun normal limit h => ?_
  unfold StandardForm.ofNormal at h
  simp only at h
  split at h <;> exact absurd h (by simp)

theorem firstTableau_conclusive (form : StandardForm α) : Conclusive form.firstTableau := by
  refine Conclusive.bind ?_ fun _ => Conclusive.bind ?_ fun _ => conclusive_ok _
  · intro limit h
    unfold Tableau.checkBounds at h
    split at h <;> exact absurd h (by simp)
  · intro limit h
    unfold Tableau.checkBasis at h
    split at h <;> exact absurd h (by simp)

theorem secondTableau_conclusive (form : StandardForm α) (t : Tableau α form.rows form.cols) :
    Conclusive (form.secondTableau t) := by
  intro limit h
  unfold StandardForm.secondTableau at h
  simp only at h
  split at h <;> exact absurd h (by simp)

end Stages

namespace Solver

-- The phase that spends all iterations, after the stages before it have succeeded.
inductive SpendsAll (solver : Solver) (m : Model α) : Prop
  | firstPhase {form : StandardForm α} {first : Tableau α form.rows form.cols}
      (hform : StandardForm.ofModel m = .ok form) (hfirst : form.firstTableau = .ok first)
      (htrivial : form.isTrivial = false) (h : first.Spends 0 solver.maxIterations)
  | secondPhase {form : StandardForm α} {first vertex second : Tableau α form.rows form.cols}
      (hform : StandardForm.ofModel m = .ok form) (hfirst : form.firstTableau = .ok first)
      (hvertex : solver.runFirstPhase form first = .ok vertex)
      (hsecond : form.secondTableau vertex = .ok second)
      (h : second.Spends 0 solver.maxIterations)

section Phases

variable {solver small large : Solver} {form : StandardForm α}
  {t : Tableau α form.rows form.cols} {limit : ℕ}

theorem endPhase_eq_limit_iff {rows cols : ℕ} {endless : Error α} {t : Tableau α rows cols}
    (hendless : ∀ k, endless ≠ .iterationLimit k) :
    solver.endPhase endless (t.run solver.maxIterations) = .error (.iterationLimit limit) ↔
      limit = solver.maxIterations ∧ t.Spends 0 solver.maxIterations := by
  rw [endPhase_eq_error_iff, ← t.runFrom_eq_iterationLimit_iff]
  constructor
  · rintro (⟨_, he⟩ | ⟨hrun, he⟩)
    · exact absurd he.symm (hendless limit)
    · exact ⟨Error.iterationLimit.inj he, hrun⟩
  · rintro ⟨rfl, hrun⟩
    exact .inr ⟨hrun, rfl⟩

theorem runFirstPhase_eq_limit_iff :
    solver.runFirstPhase form t = .error (.iterationLimit limit) ↔
      limit = solver.maxIterations ∧ form.isTrivial = false ∧ t.Spends 0 solver.maxIterations := by
  unfold runFirstPhase
  by_cases htrivial : form.isTrivial = true
  · simp [htrivial]
  · rw [if_neg htrivial, endPhase_eq_limit_iff (by simp)]
    simp [htrivial]

theorem runSecondPhase_eq_limit_iff :
    solver.runSecondPhase form t = .error (.iterationLimit limit) ↔
      limit = solver.maxIterations ∧ t.Spends 0 solver.maxIterations :=
  endPhase_eq_limit_iff (by simp)

theorem endPhase_settles {rows cols : ℕ} {endless : Error α} (t : Tableau α rows cols)
    (h : small.maxIterations ≤ large.maxIterations) :
    Settles (small.endPhase endless (t.run small.maxIterations))
      (large.endPhase endless (t.run large.maxIterations)) := by
  intro hc
  have hends : (t.run small.maxIterations).1 ≠ .iterationLimit := fun hlimit =>
    hc _ (endPhase_eq_error_iff.mpr (.inr ⟨hlimit, rfl⟩))
  have hrun : t.run large.maxIterations = t.run small.maxIterations :=
    Tableau.runFrom_of_le h t 0 hends
  rw [hrun]
  cases hlast : t.run small.maxIterations with
  | mk status u =>
    cases status with
    | optimal => rfl
    | unbounded => rfl
    | iterationLimit => exact absurd (congrArg Prod.fst hlast) hends

theorem runFirstPhase_settles (h : small.maxIterations ≤ large.maxIterations) :
    Settles (small.runFirstPhase form t) (large.runFirstPhase form t) := by
  unfold runFirstPhase
  split_ifs
  · exact Settles.refl _
  · exact endPhase_settles t h

theorem runSecondPhase_settles (h : small.maxIterations ≤ large.maxIterations) :
    Settles (small.runSecondPhase form t) (large.runSecondPhase form t) :=
  endPhase_settles t h

end Phases

section Solve

variable {solver small large : Solver} {m : Model α} {limit : ℕ}

-- The limit enters at the two phases alone.
theorem solve_settles (h : small.maxIterations ≤ large.maxIterations) (m : Model α) :
    Settles (small.solve m) (large.solve m) :=
  (Settles.refl _).bind fun _ => (Settles.refl _).bind fun _ =>
    (runFirstPhase_settles h).bind fun _ => (Settles.refl _).bind fun _ =>
      (runSecondPhase_settles h).bind fun _ => Settles.refl _

theorem solve_eq_limit_iff :
    solver.solve m = .error (.iterationLimit limit) ↔
      limit = solver.maxIterations ∧ solver.SpendsAll m := by
  constructor
  · intro h
    rcases bind_eq_error.mp h with h | ⟨form, hform, h⟩
    · exact absurd h (standardForm_conclusive m limit)
    rcases bind_eq_error.mp h with h | ⟨first, hfirst, h⟩
    · exact absurd h (firstTableau_conclusive form limit)
    rcases bind_eq_error.mp h with h | ⟨vertex, hvertex, h⟩
    · obtain ⟨hlimit, htrivial, hspends⟩ := runFirstPhase_eq_limit_iff.mp h
      exact ⟨hlimit, .firstPhase hform hfirst htrivial hspends⟩
    rcases bind_eq_error.mp h with h | ⟨second, hsecond, h⟩
    · exact absurd h (secondTableau_conclusive form vertex limit)
    rcases bind_eq_error.mp h with h | ⟨final, _, h⟩
    · obtain ⟨hlimit, hspends⟩ := runSecondPhase_eq_limit_iff.mp h
      exact ⟨hlimit, .secondPhase hform hfirst hvertex hsecond hspends⟩
    · exact absurd h (by simp [pure, Except.pure])
  · rintro ⟨rfl, hspends⟩
    cases hspends with
    | firstPhase hform hfirst htrivial h =>
      have hlimit := runFirstPhase_eq_limit_iff.mpr ⟨rfl, htrivial, h⟩
      exact bind_eq_error.mpr (.inr ⟨_, hform, bind_eq_error.mpr (.inr ⟨_, hfirst,
        bind_eq_error.mpr (.inl hlimit)⟩)⟩)
    | secondPhase hform hfirst hvertex hsecond h =>
      have hlimit := runSecondPhase_eq_limit_iff.mpr ⟨rfl, h⟩
      exact bind_eq_error.mpr (.inr ⟨_, hform, bind_eq_error.mpr (.inr ⟨_, hfirst,
        bind_eq_error.mpr (.inr ⟨_, hvertex, bind_eq_error.mpr (.inr ⟨_, hsecond,
          bind_eq_error.mpr (.inl hlimit)⟩)⟩)⟩)⟩)

end Solve

end Solver

-- No limit at all is the largest of the limits that 64 bits can hold.
theorem larger_limit_keeps_answer (m : Model α) :
    (∀ small large : Solver, small.maxIterations ≤ large.maxIterations →
      Conclusive (small.solve m) → large.solve m = small.solve m) ∧
    (∀ limit < 2 ^ 64, Conclusive ((Solver.ofLimit (some limit)).solve m) →
      (Solver.ofLimit none).solve m = (Solver.ofLimit (some limit)).solve m) ∧
    ∀ (solver : Solver) limit, solver.solve m = .error (.iterationLimit limit) ↔
      limit = solver.maxIterations ∧ solver.SpendsAll m := by
  refine ⟨fun small large hle h => Solver.solve_settles hle m h, fun limit hlimit h => ?_,
    fun solver limit => Solver.solve_eq_limit_iff⟩
  have hle : (Solver.ofLimit (some limit)).maxIterations ≤ (Solver.ofLimit none).maxIterations :=
    Nat.le_of_lt_succ hlimit
  exact Solver.solve_settles hle m h

-- Each phase takes one step and finds its optimum in the next iteration, so two iterations are
-- enough and one is not.
theorem larger_limit_keeps_answer_of_two_phases :
    let v : Variable := ⟨"x", 0⟩
    let w : Variable := ⟨"y", 1⟩
    let m : Model ℚ := {
      vars := [v, w]
      constraints := [⟨⟨[⟨v, 1⟩, ⟨w, 1⟩]⟩, .ge, 1, none, none⟩,
        ⟨⟨[⟨v, 1⟩, ⟨w, 2⟩]⟩, .le, 6, none, none⟩]
      objective := some ⟨⟨[⟨v, 2⟩, ⟨w, 3⟩]⟩, .maximize⟩ }
    Conclusive (Solver.solve ⟨2⟩ m) ∧ Solver.solve ⟨10000⟩ m = Solver.solve ⟨2⟩ m ∧
      (Solver.ofLimit none).solve m = Solver.solve ⟨2⟩ m ∧
      Solver.solve ⟨1⟩ m = .error (.iterationLimit 1) ∧ Solver.SpendsAll ⟨1⟩ m := by
  intro v w m
  obtain ⟨s, hs⟩ : ∃ s, Solver.solve ⟨2⟩ m = .ok s := exists_eq_ok (by decide +kernel)
  have hsmall : Conclusive (Solver.solve ⟨2⟩ m) := by
    rw [hs]
    exact conclusive_ok s
  obtain ⟨e, hone, he⟩ : ∃ e, Solver.solve ⟨1⟩ m = .error e ∧
      (match e with | .iterationLimit limit => limit == 1 | _ => false) = true :=
    exists_eq_error_and (by decide +kernel)
  obtain rfl : e = .iterationLimit 1 := by
    cases e <;> simp_all
  obtain ⟨hlarger, hunlimited, hspends⟩ := larger_limit_keeps_answer m
  exact ⟨hsmall, hlarger ⟨2⟩ ⟨10000⟩ (by decide) hsmall, hunlimited 2 (by decide) hsmall, hone,
    ((hspends ⟨1⟩ 1).mp hone).2⟩

end LinearProgram
