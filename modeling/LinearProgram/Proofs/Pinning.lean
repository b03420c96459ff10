import LinearProgram.Proofs.Acceptance

namespace LinearProgram

namespace Tableau

variable {m n : ℕ}

-- No column loses room that it is measured across.
def Pinnable (t : Tableau ℚ m n) (cols : List (Fin n)) : Prop :=
  ∀ j ∈ cols, t.complemented.get j = true → t.span.get j = some 0

-- The tableaux that steps, new costs and the admitted pins lead to, in any order.
inductive ReachesBy (admits : Tableau ℚ m n → List (Fin n) → Prop) (start : Tableau ℚ m n) :
    Tableau ℚ m n → Prop
  | refl : ReachesBy admits start start
  | iterate {t : Tableau ℚ m n} (bland : Bool) :
      ReachesBy admits start t → ReachesBy admits start (t.iterate bland).2
  | setCosts {t : Tableau ℚ m n} (costs : Vector ℚ n) :
      ReachesBy admits start t → ReachesBy admits start (t.setCosts costs)
  | fixColumns {t : Tableau ℚ m n} (cols : List (Fin n)) (hc : admits t cols) :
      ReachesBy admits start t → ReachesBy admits start (t.fixColumns cols)

instance (t : Tableau ℚ m n) (cols : List (Fin n)) : Decidable (t.Pinnable cols) :=
  inferInstanceAs
    (Decidable (∀ j ∈ cols, t.complemented.get j = true → t.span.get j = some 0))

section Pin

variable {t t₀ : Tableau ℚ m n} {cols : List (Fin n)}

theorem fixColumns_values_get (t : Tableau ℚ m n) (cols : List (Fin n)) (j : Fin n) :
    (t.fixColumns cols).values.get j = t.lower.get j +
      if t.complemented.get j then
        (if j ∈ cols then 0 else (t.span.get j).getD 0) - t.level j
      else t.level j := by
  rw [values_get, fixColumns_span, apply_ite (Option.getD · 0), Option.getD_some]
  rfl

-- The values tell whether a pin has taken room away, since a complemented column has an upper
-- bound.
theorem fixColumns_values_eq_iff (h : t.Consistent) :
    (t.fixColumns cols).values = t.values ↔ t.Pinnable cols := by
  have hget : (t.fixColumns cols).values = t.values ↔
      ∀ j, (t.fixColumns cols).values.get j = t.values.get j :=
    ⟨fun he j => by rw [he], fun he => Vector.ext fun j hj => he ⟨j, hj⟩⟩
  rw [hget]
  refine forall_congr' fun j => ?_
  rw [fixColumns_values_get, values_get]
  by_cases hj : j ∈ cols
  · cases hc : t.complemented.get j with
    | false => simp [hj]
    | true =>
      obtain ⟨s, hs⟩ := h.bounded j hc
      simp [hj, hs, eq_comm]
  · simp [hj]

-- Whatever a pin does to the point, the pinned column has an upper bound after it.
theorem ReachesBy.consistent {admits : Tableau ℚ m n → List (Fin n) → Prop}
    (h : ReachesBy admits t₀ t) (h₀ : t₀.Consistent) : t.Consistent := by
  induction h with
  | refl => exact h₀
  | @iterate t bland _ ih => exact ih.apply (t.move_legal bland)
  | setCosts costs _ ih => exact ih.setCosts costs
  | fixColumns cols _ _ ih => exact ih.fixColumns

-- Where no room is lost, the columns that are measured from their upper bounds are pinned already.
theorem Pinnable.fixColumns_eq (h : t.Pinnable cols) :
    t.fixColumns cols = t.fixColumns (cols.filter fun j => !t.complemented.get j) := by
  have hspan : (t.fixColumns cols).span =
      (t.fixColumns (cols.filter fun j => !t.complemented.get j)).span := by
    refine Vector.ext fun k hk => ?_
    change (t.fixColumns cols).span.get ⟨k, hk⟩ = (t.fixColumns _).span.get ⟨k, hk⟩
    rw [fixColumns_span, fixColumns_span]
    by_cases hj : (⟨k, hk⟩ : Fin n) ∈ cols
    · cases hc : t.complemented.get ⟨k, hk⟩ with
      | false => simp [hj, hc]
      | true => simp [hj, hc, h _ hj hc]
    · simp [hj]
  calc t.fixColumns cols
      = { t with span := (t.fixColumns cols).span } := rfl
    _ = t.fixColumns (cols.filter fun j => !t.complemented.get j) := by rw [hspan]; rfl

theorem Reaches.fixColumns_of_pinnable (h : Reaches t₀ t) (hc : t.Pinnable cols) :
    Reaches t₀ (t.fixColumns cols) := by
  rw [hc.fixColumns_eq]
  refine h.fixColumns _ fun j hj => ?_
  simpa using (List.mem_filter.mp hj).2

theorem ReachesBy.reaches (h : ReachesBy Pinnable t₀ t) : Reaches t₀ t := by
  induction h with
  | refl => exact .refl
  | iterate bland _ ih => exact ih.iterate bland
  | setCosts costs _ ih => exact ih.setCosts costs
  | fixColumns cols hc _ ih => exact ih.fixColumns_of_pinnable hc

end Pin

end Tableau

namespace StandardForm

variable {m : Model ℚ} {form : StandardForm ℚ}

-- A pin leaves the point where it is just when no column loses room that it is measured across.
-- After any number of such pins the point solves the system and has the objective that is stored.
theorem pin_keeps_point_iff (hm : m.WellFormed) (h : ofModel m = .ok form) :
    ∃ first, form.firstTableau = .ok first ∧
      (∀ t, first.ReachesBy (fun _ _ => True) t → ∀ cols,
        ((t.fixColumns cols).values = t.values ↔ t.Pinnable cols)) ∧
      ∀ t, first.ReachesBy Tableau.Pinnable t → ∀ cols, t.Pinnable cols →
        (∀ i, ∑ j, (form.matrix.get i).get j *
          ((t.fixColumns cols).values.get j - form.lower.get j) = max (form.rhs.get i) 0) ∧
        (t.fixColumns cols).objective =
          ∑ j, (t.fixColumns cols).costs.get j * (t.fixColumns cols).values.get j := by
  obtain ⟨folded, o, row, hof⟩ := ofModel_eq_ok hm h
  have hconsistent := hof.start_consistent
  refine ⟨form.start, hof.firstTableau_eq, fun t ht cols =>
    Tableau.fixColumns_values_eq_iff (ht.consistent hconsistent), fun t ht cols hc => ?_⟩
  have hpinned := ht.reaches.fixColumns_of_pinnable hc
  exact ⟨(hpinned.keeps hconsistent).represents.values,
    (hpinned.priced hconsistent hof.start_priced).objective⟩

-- The artificial column leaves the basis at its upper bound after it has been pinned, and is pinned
-- once more.
theorem pin_keeps_point_iff_of_pinned_twice :
    let v : Variable := ⟨"x", 0⟩
    let w : Variable := ⟨"y", 1⟩
    let m : Model ℚ := {
      vars := [v, w]
      constraints := [⟨⟨[⟨v, -1⟩, ⟨w, -1⟩]⟩, .eq, 0, none, none⟩]
      objective := some ⟨⟨[⟨v, 1⟩]⟩, .maximize⟩ }
    m.WellFormed ∧ ∃ form first t, ofModel m = .ok form ∧ form.firstTableau = .ok first ∧
      first.ReachesBy Tableau.Pinnable t ∧ t.Pinnable form.artificial ∧
      (∃ j ∈ form.artificial, t.complemented.get j = true) ∧
      (t.fixColumns form.artificial).values = t.values ∧
      (∀ i, ∑ j, (form.matrix.get i).get j *
        ((t.fixColumns form.artificial).values.get j - form.lower.get j) =
          max (form.rhs.get i) 0) ∧
      (t.fixColumns form.artificial).objective =
        ∑ j, (t.fixColumns form.artificial).costs.get j *
          (t.fixColumns form.artificial).values.get j := by
  intro v w m
  have hm : m.WellFormed := by decide
  let pin (form : StandardForm ℚ) := (form.start.iterate false).2.fixColumns form.artificial
  let last (form : StandardForm ℚ) := (((pin form).setCosts form.costs).iterate false).2
  obtain ⟨form, hform, hcheck⟩ : ∃ form, ofModel m = .ok form ∧
      decide ((form.start.iterate false).2.Pinnable form.artificial ∧
        (last form).Pinnable form.artificial ∧
        ∃ j ∈ form.artificial, (last form).complemented.get j = true) = true :=
    exists_eq_ok_and (by decide +kernel)
  obtain ⟨hfirst, hagain, hturned⟩ := of_decide_eq_true hcheck
  obtain ⟨first, hstart, hmoves, hkeeps⟩ := pin_keeps_point_iff hm hform
  obtain rfl : first = form.start := Tableau.eq_start_of_start? hstart
  have hreaches : ∀ {admits}, admits (form.start.iterate false).2 form.artificial →
      form.start.ReachesBy admits (last form) := fun hadmits =>
    (((Tableau.ReachesBy.refl.iterate false).fixColumns _ hadmits).setCosts form.costs).iterate false
  obtain ⟨hrows, hobjective⟩ := hkeeps _ (hreaches hfirst) _ hagain
  exact ⟨hm, form, form.start, last form, hform, hstart, hreaches hfirst, hagain, hturned,
    (hmoves _ (hreaches trivial) _).mpr hagain, hrows, hobjective⟩

-- The first step takes `x` to its upper bound. The pin takes it back, and the row that it is in
-- does not hold any more.
theorem pin_moves_complemented :
    let v : Variable := ⟨"x", 0⟩
    let w : Variable := ⟨"y", 1⟩
    let m : Model ℚ := {
      vars := [v, w]
      constraints := [⟨⟨[⟨v, 1⟩]⟩, .le, 1, none, none⟩, ⟨⟨[⟨v, 1⟩, ⟨w, 1⟩]⟩, .le, 4, none, none⟩]
      objective := some ⟨⟨[⟨v, 1⟩]⟩, .maximize⟩ }
    m.WellFormed ∧ ∃ form first t, ofModel m = .ok form ∧ form.firstTableau = .ok first ∧
      first.ReachesBy (fun _ _ => True) t ∧ ∃ cols,
        (t.fixColumns cols).values ≠ t.values ∧
        (¬∀ i, ∑ j, (form.matrix.get i).get j *
          ((t.fixColumns cols).values.get j - form.lower.get j) = max (form.rhs.get i) 0) ∧
        (t.fixColumns cols).objective ≠
          ∑ j, (t.fixColumns cols).costs.get j * (t.fixColumns cols).values.get j := by
  intro v w m
  have hm : m.WellFormed := by decide
  obtain ⟨form, hform, hcheck⟩ : ∃ form, ofModel m = .ok form ∧
      decide (form.firstTableau.isOk = true ∧ ∃ j : Fin form.cols,
        let t := ((form.start.setCosts form.costs).iterate false).2
        (t.fixColumns [j]).values ≠ t.values ∧
        (¬∀ i, total (List.ofFn fun k => (form.matrix.get i).get k *
          ((t.fixColumns [j]).values.get k - form.lower.get k)) = max (form.rhs.get i) 0) ∧
        (t.fixColumns [j]).objective ≠
          total (List.ofFn fun k =>
            (t.fixColumns [j]).costs.get k * (t.fixColumns [j]).values.get k)) = true :=
    exists_eq_ok_and (by decide +kernel)
  obtain ⟨hok, j, hvalues, hrows, hobjective⟩ := of_decide_eq_true hcheck
  obtain ⟨first, hstart⟩ := exists_eq_ok hok
  obtain rfl : first = form.start := Tableau.eq_start_of_start? hstart
  simp only [total_eq_sum, List.sum_ofFn] at hrows hobjective
  exact ⟨hm, form, form.start, _, hform, hstart, (Tableau.ReachesBy.refl.setCosts form.costs).iterate
    false, [j], hvalues, hrows, hobjective⟩

end StandardForm

end LinearProgram
