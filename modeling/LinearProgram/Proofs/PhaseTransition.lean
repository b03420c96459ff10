import LinearProgram.Proofs.Acceptance
import LinearProgram.Proofs.Solving

namespace LinearProgram

namespace Tableau

variable {m n : ℕ} {t : Tableau ℚ m n} {j : Fin n}

-- The tableau after one step for each rule of the list, `true` for Bland's.
def iterates (t : Tableau ℚ m n) (rules : List Bool) : Tableau ℚ m n :=
  rules.foldl (fun u bland => (u.iterate bland).2) t

theorem iterates_induction {p : Tableau ℚ m n → Prop}
    (hstep : ∀ u bland, p u → p (u.iterate bland).2) (rules : List Bool) (h : p t) :
    p (t.iterates rules) := by
  induction rules generalizing t with
  | nil => exact h
  | cons bland rest ih => exact ih (hstep t bland h)

theorem reaches_iterates (t : Tableau ℚ m n) (rules : List Bool) : t.Reaches (t.iterates rules) :=
  iterates_induction (fun _ bland h => h.iterate bland) rules .refl

theorem iterates_span (t : Tableau ℚ m n) (rules : List Bool) : (t.iterates rules).span = t.span :=
  iterates_induction (p := fun u => u.span = t.span) (fun _ _ h => (apply_span _ _).trans h) rules
    rfl

theorem iterates_lower (t : Tableau ℚ m n) (rules : List Bool) :
    (t.iterates rules).lower = t.lower :=
  iterates_induction (p := fun u => u.lower = t.lower) (fun _ _ h => (apply_lower _ _).trans h)
    rules rfl

section Pinned

-- A column of the basis was there before, or it has entered.
theorem isBasic_or_canEnter {move : Move ℚ m n} (hm : t.Legal move)
    (hj : (t.apply move).isBasic j = true) : t.isBasic j = true ∨ t.canEnter j = true := by
  cases move with
  | optimal => exact .inl hj
  | unbounded q => exact .inl hj
  | flip q length => exact .inl hj
  | pivot r q atUpper length =>
    obtain ⟨i, hi⟩ := (isBasic_iff _ j).mp hj
    rw [apply_pivot_basis] at hi
    split_ifs at hi
    · exact .inr (hi ▸ hm.1)
    · exact .inl ((t.isBasic_iff j).mpr ⟨i, hi⟩)

variable (hpinned : t.span.get j = some 0)

include hpinned

-- A column without room does not enter.
theorem canEnter_of_pinned : t.canEnter j = false := by
  by_contra henter
  have hroom := (t.isMovable_iff j).mp ((t.canEnter_iff j).mp (by simpa using henter)).2.1 0 hpinned
  exact absurd hroom (not_lt.mpr eps_nonneg)

theorem isBasic_of_iterates (rules : List Bool) (hj : (t.iterates rules).isBasic j = true) :
    t.isBasic j = true := by
  induction rules generalizing t with
  | nil => exact hj
  | cons bland rest ih =>
    have hnext : (t.iterate bland).2.span.get j = some 0 := by
      rw [show (t.iterate bland).2.span = t.span from apply_span t _]
      exact hpinned
    have hone := ih hnext hj
    refine (isBasic_or_canEnter (t.move_legal bland) hone).resolve_right ?_
    rw [canEnter_of_pinned hpinned]
    exact Bool.false_ne_true

-- It is at its lower bound, from which side it is measured or not.
theorem value_of_pinned (hj : t.isBasic j = false) : t.values.get j = t.lower.get j := by
  rw [values_get, hpinned, level_nonbasic ((t.isBasic_eq_false j).mp hj)]
  simp

end Pinned

-- The two tableaux differ in their prices and in the room of their columns only.
structure SameVertex (t u : Tableau ℚ m n) : Prop where
  basis : u.basis = t.basis
  body : u.body = t.body
  rhs : u.rhs = t.rhs
  complemented : u.complemented = t.complemented
  values : u.values = t.values

end Tableau

namespace StandardForm

variable {m : Model ℚ} {form : StandardForm ℚ} {t : Tableau ℚ form.rows form.cols}

theorem retireArtificials_span (t : Tableau ℚ form.rows form.cols) (j : Fin form.cols) :
    (form.retireArtificials t).span.get j =
      if j ∈ form.artificial then some 0 else t.span.get j :=
  Tableau.fixColumns_span t form.artificial j

theorem retireArtificials_sameVertex
    (hfree : ∀ j ∈ form.artificial, t.complemented.get j = false) :
    t.SameVertex (form.retireArtificials t) :=
  ⟨rfl, rfl, rfl, rfl, Vector.ext fun j hj => Tableau.fixColumns_values hfree ⟨j, hj⟩⟩

-- The second phase starts where the first has ended and never takes an artificial column back.
theorem phase_transition (hm : m.WellFormed) (h : ofModel m = .ok form) :
    ∃ first, form.firstTableau = .ok first ∧ ∀ rules,
      (∀ j ∈ form.artificial, (first.iterates rules).complemented.get j = false) ∧
      ∀ second, form.secondTableau (first.iterates rules) = .ok second →
        (first.iterates rules).SameVertex second ∧
        ∀ rules' u, u = second.iterates rules' → ∀ j ∈ form.artificial,
          (∀ bland, u.entering? bland ≠ some j) ∧
          (∀ further, (u.iterates further).isBasic j = true → u.isBasic j = true) ∧
          (u.isBasic j = false → u.values.get j = 0) := by
  obtain ⟨folded, o, row, hof⟩ := ofModel_eq_ok hm h
  refine ⟨form.start, hof.firstTableau_eq, fun rules => ?_⟩
  have hspan : ∀ j, (form.start.iterates rules).span.get j = form.room j := fun j => by
    rw [Tableau.iterates_span, form.start_span]
  have hfree := not_complemented_of_artificial hof (form.start.reaches_iterates rules) hspan
  refine ⟨hfree, fun second hsecond => ?_⟩
  obtain ⟨_, rfl⟩ := secondTableau_eq_ok hsecond
  refine ⟨retireArtificials_sameVertex hfree, ?_⟩
  rintro rules' u rfl j hj
  -- From here on the run keeps the artificial columns pinned.
  have hpinned : ((form.retireArtificials (form.start.iterates rules)).iterates
      rules').span.get j = some 0 := by
    rw [Tableau.iterates_span, retireArtificials_span, if_pos hj]
  refine ⟨fun bland henters => ?_, Tableau.isBasic_of_iterates hpinned, fun hout => ?_⟩
  · have henter := Tableau.canEnter_of_entering? _ henters
    rw [Tableau.canEnter_of_pinned hpinned] at henter
    exact Bool.false_ne_true henter
  · rw [Tableau.value_of_pinned hpinned hout, Tableau.iterates_lower]
    change (form.start.iterates rules).lower.get j = 0
    rw [Tableau.iterates_lower]
    exact hof.lower_appended (hof.le_artificial hj)

-- The artificial column is still basic when the second phase starts, and the first step takes it to
-- its new upper bound.
theorem phase_transition_of_departure_at_upper :
    let v : Variable := ⟨"x", 0⟩
    let w : Variable := ⟨"y", 1⟩
    let m : Model ℚ := {
      vars := [v, w]
      constraints := [⟨⟨[⟨v, -1⟩, ⟨w, -1⟩]⟩, .eq, 0, none, none⟩]
      objective := some ⟨⟨[⟨v, 1⟩]⟩, .maximize⟩ }
    m.WellFormed ∧ ∃ form first second, ofModel m = .ok form ∧ form.firstTableau = .ok first ∧
      form.secondTableau (first.iterates [false]) = .ok second ∧
      (first.iterates [false]).SameVertex second ∧ ∃ j ∈ form.artificial,
        second.isBasic j = true ∧ (second.iterates [false]).isBasic j = false ∧
        (second.iterates [false]).complemented.get j = true ∧
        (second.iterates [false]).values.get j = 0 := by
  intro v w m
  have hm : m.WellFormed := by decide
  obtain ⟨form, hform, hcheck⟩ : ∃ form, ofModel m = .ok form ∧
      decide ((form.secondTableau (form.start.iterates [false])).isOk = true ∧
        ∃ j ∈ form.artificial,
          (form.retireArtificials (form.start.iterates [false])).isBasic j = true ∧
          ((form.retireArtificials (form.start.iterates [false])).iterates [false]).isBasic j =
            false ∧
          ((form.retireArtificials (form.start.iterates [false])).iterates
            [false]).complemented.get j = true) = true :=
    exists_eq_ok_and (by decide +kernel)
  obtain ⟨hok, j, hj, hin, hout, hturned⟩ := of_decide_eq_true hcheck
  obtain ⟨first, hfirst, hphases⟩ := phase_transition hm hform
  obtain rfl : first = form.start := Tableau.eq_start_of_start? hfirst
  obtain ⟨second, hsecond⟩ := exists_eq_ok hok
  obtain ⟨hsame, hretired⟩ := (hphases [false]).2 second hsecond
  obtain ⟨_, rfl⟩ := secondTableau_eq_ok hsecond
  obtain ⟨_, _, hzero⟩ := hretired [false] _ rfl j hj
  exact ⟨hm, form, form.start, _, hform, hfirst, hsecond, hsame, j, hj, hin, hout, hturned,
    hzero hout⟩

end StandardForm

end LinearProgram
