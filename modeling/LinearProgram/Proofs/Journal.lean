import LinearProgram.Proofs.Integrity
import LinearProgram.Journal.Search

namespace LinearProgram

namespace Journal

variable {β γ : Type}

-- What was recorded before does not matter to the outcome.
def Yields (journal : Journal β) (outcome : Except (Error Float) β) : Prop :=
  ∀ earlier, (journal.run.run earlier).1 = outcome

theorem Yields.finish {journal : Journal β} {outcome : Except (Error Float) β}
    (h : journal.Yields outcome) : journal.finish.1 = outcome :=
  h #[]

theorem yields_pure (b : β) : Yields (pure b) (.ok b) :=
  fun _ => rfl

theorem yields_throw (e : Error Float) : Yields (throw e : Journal β) (.error e) :=
  fun _ => rfl

theorem yields_lift (result : Except (Error Float) β) : Yields (liftM result) result :=
  fun _ => rfl

theorem yields_record (events : List Event) : Yields (record events) (.ok ()) :=
  fun _ => rfl

-- The second part matters only after a result of the first.
theorem Yields.bind {x : Journal β} {f : β → Journal γ} {outcome : Except (Error Float) β}
    {next : β → Except (Error Float) γ} (hx : x.Yields outcome)
    (hf : ∀ b, outcome = .ok b → (f b).Yields (next b)) :
    Yields (x >>= f) (outcome >>= next) := by
  intro earlier
  have hrun := hx earlier
  generalize hpair : x.run.run earlier = pair at hrun
  obtain ⟨result, later⟩ := pair
  subst hrun
  cases result with
  | error e => rw [run_bind_of_error hpair]; rfl
  | ok b => rw [run_bind_of_ok hpair]; exact hf b rfl later

-- A record on the way changes nothing.
theorem Yields.after_record {events : List Event} {x : Journal β}
    {outcome : Except (Error Float) β} (h : x.Yields outcome) :
    Yields (do record events; x) outcome :=
  (yields_record events).bind fun _ _ => h

theorem Yields.record_after {events : β → List Event} {x : Journal β}
    {outcome : Except (Error Float) β} (h : x.Yields outcome) :
    Yields (do let b ← x; record (events b); return b) outcome := by
  have hrecord : ∀ b, Yields (do record (events b); return b) (.ok b) :=
    fun b => (yields_pure b).after_record
  have hbind := h.bind fun b _ => hrecord b
  rwa [show (outcome >>= Except.ok) = outcome from bind_pure outcome] at hbind

theorem yields_attempt (result : Except (Error Float) β) (onError : Error Float → List Event) :
    Yields (attempt result onError) result := by
  cases result with
  | error e => exact (yields_throw e).after_record
  | ok b => exact yields_pure b

-- A failure is recorded and passed on.
theorem Yields.onError {x : Journal β} {events : List Event} {outcome : Except (Error Float) β}
    (h : x.Yields outcome) :
    Yields (try x catch e => do record events; throw e) outcome := by
  intro earlier
  have hrun := h earlier
  generalize hpair : x.run.run earlier = pair at hrun
  obtain ⟨result, later⟩ := pair
  subst hrun
  rw [ExceptT.run_tryCatch, StateT.run_bind, hpair]
  cases result <;> rfl

end Journal

open Journal

section Run

variable {m n : ℕ}

-- Iteration by iteration the journal makes the step of the run.
theorem yields_runJournalFrom (iterations number stalled : ℕ) (t : Tableau Float m n) :
    Yields (t.runJournalFrom iterations number stalled) (.ok (t.runFrom iterations stalled)) := by
  induction iterations generalizing number stalled t with
  | zero => exact (yields_pure _).after_record.after_record
  | succ iterations ih =>
    refine Yields.after_record (Yields.after_record ?_)
    simp only [Tableau.runFrom, Tableau.iterate]
    cases (t.move (decide (stallLimit ≤ stalled))).step with
    | optimal => exact (yields_pure _).after_record
    | unbounded => exact yields_pure _
    | pivoted degenerate => exact ih _ _ _

theorem yields_runJournal (t : Tableau Float m n) (iterations : ℕ) :
    Yields (t.runJournal iterations) (.ok (t.run iterations)) :=
  (yields_runJournalFrom iterations 1 0 t).after_record

end Run

section Solve

variable (solver : Solver) (form : StandardForm Float) (m : Model Float)
  (t : Tableau Float form.rows form.cols)

theorem yields_standardForm : Yields (StandardForm.journal m) (StandardForm.ofModel m) := by
  have hnormal : Yields (Normal.journal m) (Normal.ofModel m) :=
    (yields_attempt _ _).record_after
  exact hnormal.bind fun normal _ => yields_lift _

theorem yields_firstPhase :
    Yields (solver.firstPhaseJournal form t) (solver.runFirstPhase form t) := by
  unfold Solver.firstPhaseJournal Solver.runFirstPhase
  split_ifs
  · exact yields_pure t
  · exact ((yields_runJournal t solver.maxIterations).bind fun ended _ =>
      (yields_attempt (solver.endPhase .unboundedFirstPhase ended) _).record_after).after_record

theorem yields_secondPhase :
    Yields (solver.secondPhaseJournal form t) (solver.runSecondPhase form t) :=
  ((yields_runJournal t solver.maxIterations).bind fun ended _ =>
    yields_attempt (solver.endPhase .unbounded ended) _).after_record

theorem yields_solve : Yields (solver.journal m) (solver.solve m) := by
  refine (yields_standardForm m).bind fun form _ => ?_
  refine (yields_lift form.firstTableau).after_record.bind fun first _ => ?_
  refine (yields_firstPhase solver form first).bind fun feasible _ => ?_
  refine ((yields_attempt (form.secondTableau feasible) _).record_after.onError).bind
    fun second _ => ?_
  refine (yields_secondPhase solver form second).bind fun final _ => ?_
  exact (yields_pure _).after_record

-- The journal of a solve tells of the solve that gives the solution.
theorem solve_journal_outcome : (solver.journal m).finish.1 = solver.solve m :=
  (yields_solve solver m).finish

end Solve

namespace Search

variable {simplex : Solver} {search : Search Float} {m : Model Float} {rest : List (Model Float)}

theorem yields_visit :
    Yields (search.visitJournal simplex m rest) (search.visit simplex.solve m rest) := by
  have hjudge : judge (fun _ => (simplex.journal m).finish.1) search.incumbent m =
      judge simplex.solve search.incumbent m := by
    unfold judge
    rw [solve_journal_outcome]
  refine Yields.after_record ?_
  unfold visit
  rw [← hjudge]
  exact (yields_lift _).bind fun verdict _ => (yields_lift _).after_record

-- Node by node the journal visits what the search visits.
theorem yields_run (allowance : ℕ) (search : Search Float) :
    Yields (journal simplex allowance search) (search.run simplex.solve allowance) := by
  induction allowance generalizing search with
  | zero =>
    unfold journal run
    cases search.pending <;> exact yields_pure _
  | succ allowance ih =>
    unfold journal run
    cases search.pending with
    | nil => exact yields_pure _
    | cons m rest =>
      have hstep := yields_visit.bind
        fun next (_ : search.visit simplex.solve m rest = .ok next) => ih next
      dsimp only
      cases hvisit : search.visit simplex.solve m rest <;> rwa [hvisit] at hstep

end Search

theorem search_journal_outcome (solver : BranchAndBound) (m : Model Float) :
    (solver.journal m).finish.1 = solver.search m := by
  refine Yields.finish ((yields_lift m.validate).bind fun _ _ => ?_)
  exact Search.yields_run solver.timeLimit.nanoseconds (Search.start m)

end LinearProgram
