import LinearProgram.Proofs.FirstTableau
import LinearProgram.Proofs.RowVariables

namespace LinearProgram

namespace Bounds

variable {α : Type} [Scalar α] {n : ℕ} {e : Error α}

theorem absorb_eq_error {bounds : Bounds α n} {c : Constraint α}
    (h : bounds.absorb c = .error e) : ∃ reason, e = .infeasible reason := by
  have hconstant : (if Constraint.relates 0 c.relation c.bound = true then
      (.ok bounds : Except (Error α) (Bounds α n)) else
      .error (.infeasible (.constantConstraint c))) = .error e →
        ∃ reason, e = .infeasible reason := by
    intro h
    split_ifs at h
    exact ⟨_, (Except.error.inj h).symm⟩
  unfold absorb at h
  simp only at h
  split at h
  · exact hconstant h
  · split at h
    · exact absurd h (by simp)
    · exact hconstant h

theorem foldlM_absorb_eq_error {cs : List (Constraint α)} {bounds : Bounds α n}
    (h : cs.foldlM absorb bounds = .error e) : ∃ reason, e = .infeasible reason := by
  induction cs generalizing bounds with
  | nil => exact absurd h (by simp [List.foldlM_nil, pure, Except.pure])
  | cons c rest ih =>
    rw [List.foldlM_cons] at h
    rcases bind_eq_error.mp h with hc | ⟨mid, _, hrest⟩
    · exact absorb_eq_error hc
    · exact ih hrest

theorem ofModel_eq_error {m : Model α} (h : Bounds.ofModel m = .error e) :
    ∃ reason, e = .infeasible reason := by
  rcases bind_eq_error.mp h with hfold | ⟨raw, _, hrest⟩
  · exact foldlM_absorb_eq_error hfold
  · split at hrest
    · exact ⟨_, (Except.error.inj hrest).symm⟩
    · exact absurd hrest (by simp [pure, Except.pure])

end Bounds

namespace Normal

section Errors

variable {α : Type} [Scalar α] {m : Model α} {o : Objective α} {e : Error α}

-- Once the bounds are folded nothing can fail.
theorem ofModel_eq_error_iff : ofModel m = .error e ↔ m.validate = .error e ∨
    (∃ o, m.validate = .ok o) ∧
      Bounds.ofModel { m.simplify with name := m.name ++ " (normalized)" } = .error e := by
  constructor
  · intro h
    rcases bind_eq_error.mp h with hvalid | ⟨o, ho, hrest⟩
    · exact Or.inl hvalid
    rcases bind_eq_error.mp hrest with hfold | ⟨bounds, _, hrest⟩
    · exact Or.inr ⟨⟨o, ho⟩, hfold⟩
    rcases bind_eq_error.mp hrest with hequalities | ⟨_, _, hnew⟩
    · obtain ⟨ds, hds, _⟩ := exists_equalities bounds.lower.toList 0 m.simplify.constraints
        { m.simplify with name := m.name ++ " (normalized)" }
      rw [hds] at hequalities
      exact absurd hequalities (by simp)
    · exact absurd hnew (by simp [pure, Except.pure])
  · rintro (hvalid | ⟨⟨o, ho⟩, hfold⟩)
    · exact bind_eq_error.mpr (.inl hvalid)
    · exact bind_eq_error.mpr (.inr ⟨o, ho, bind_eq_error.mpr (.inl hfold)⟩)

theorem ofModel_eq_error (ho : m.validate = .ok o) (h : ofModel m = .error e) :
    ∃ reason, e = .infeasible reason := by
  rcases ofModel_eq_error_iff.mp h with hvalid | ⟨_, hfold⟩
  · rw [ho] at hvalid
    exact absurd hvalid (by simp)
  · exact Bounds.ofModel_eq_error hfold

theorem ofModel_eq_error_cases (h : ofModel m = .error e) :
    e = .noVariables ∨ e = .noObjective ∨ ∃ reason, e = .infeasible reason := by
  rcases ofModel_eq_error_iff.mp h with hvalid | ⟨_, hfold⟩
  · exact (validate_eq_error hvalid).imp_right Or.inl
  · exact Or.inr (Or.inr (Bounds.ofModel_eq_error hfold))

end Errors

variable {m : Model ℚ}

-- A row starts from its artificial variable or its slack, which is a column of the model.
theorem basicColumn?_isSome {normal : Normal ℚ} (h : ofModel m = .ok normal) {d : Constraint ℚ}
    (hd : d ∈ normal.model.rows) : (d.basicColumn? normal.model.vars.length).isSome = true := by
  obtain ⟨o, _, hrest⟩ := bind_eq_ok.mp h
  obtain ⟨folded, _, hrest⟩ := bind_eq_ok.mp hrest
  obtain ⟨⟨constraints, widened⟩, heq, hnew⟩ := bind_eq_ok.mp hrest
  obtain rfl := Except.ok.inj hnew
  obtain ⟨hequalities, _⟩ := equalities_eq_ok heq
  obtain ⟨hmem, hp⟩ := List.mem_filter.mp hd
  obtain ⟨c, _, _, k, l, _, hl, hr⟩ := hequalities.exists_constraint hmem hp
  obtain ⟨v, hv⟩ : ∃ v, (d.artificial <|> d.extra) = some v := by
    cases hr with
    | slack => exact ⟨_, rfl⟩
    | surplus => exact ⟨_, rfl⟩
    | equation => exact ⟨_, rfl⟩
  have hlt := (hr.basic_index hv).2.trans_le hl
  exact Option.isSome_iff_exists.mpr ⟨⟨v.index, hlt⟩, basicColumn?_eq_some.mpr ⟨v, hv, rfl⟩⟩

end Normal

namespace StandardForm

variable {m : Model ℚ} {form : StandardForm ℚ} {folded : Bounds ℚ m.vars.length} {o : Objective ℚ}
  {row : Fin form.rows → Constraint ℚ} {e : Error ℚ}

theorem exists_ofNormal {normal : Normal ℚ} (h : Normal.ofModel m = .ok normal) (given : ℕ) :
    ∃ form, ofNormal normal given = .ok form := by
  unfold ofNormal
  simp only
  split
  · rename_i c hc
    have hnone := List.find?_some hc
    have hsome := Normal.basicColumn?_isSome h (List.mem_of_find?_eq_some hc)
    rw [Option.isSome_iff_ne_none] at hsome
    exact absurd (by simpa using hnone) hsome
  · exact ⟨_, rfl⟩

theorem ofModel_eq_error (ho : m.validate = .ok o) (h : ofModel m = .error e) :
    ∃ reason, e = .infeasible reason := by
  rcases bind_eq_error.mp h with hnormal | ⟨normal, hnormal, hform⟩
  · exact Normal.ofModel_eq_error ho hnormal
  · obtain ⟨form, hok⟩ := exists_ofNormal hnormal m.vars.length
    rw [hok] at hform
    exact absurd hform (by simp)

theorem Of.firstTableau_eq (hof : form.Of m folded o row) : form.firstTableau = .ok form.start := by
  refine Tableau.start?_of_unitColumns hof.unitColumns fun b hb => ?_
  obtain ⟨i, hi, rfl⟩ := Vector.mem_iff_getElem.mp (Vector.mem_toList_iff.mp hb)
  exact (hof.rhs_gt ⟨i, hi⟩).le

end StandardForm

end LinearProgram
