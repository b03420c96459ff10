import LinearProgram.Proofs.Tableau.Entries
import LinearProgram.Proofs.Tableau.Steps

namespace LinearProgram

namespace Tableau

variable {m n : ℕ}

section Entering

variable (t : Tableau ℚ m n)

theorem canEnter_iff (j : Fin n) :
    t.canEnter j = true ↔
      eps < t.reduced.get j ∧ t.isMovable j = true ∧ t.isBasic j = false := by
  simp [canEnter, and_assoc]

theorem isMovable_iff (j : Fin n) :
    t.isMovable j = true ↔ ∀ s, t.span.get j = some s → eps < s := by
  unfold isMovable
  cases t.span.get j <;> simp

theorem isMovable_eq_false (j : Fin n) :
    t.isMovable j = false ↔ ∃ s, t.span.get j = some s ∧ s ≤ eps := by
  unfold isMovable
  cases t.span.get j <;> simp

-- The better of the candidate and the next column.
def steeper (best : Option (Fin n)) (j : Fin n) : Option (Fin n) :=
  match best with
  | some k => if t.reduced.get j ≤ t.reduced.get k then some k else some j
  | none => some j

theorem steepest?_eq_foldl (cols : List (Fin n)) :
    t.steepest? cols = cols.foldl t.steeper none := rfl

theorem steeper_eq_some (best : Option (Fin n)) (j : Fin n) :
    ∃ k, t.steeper best j = some k ∧ (best = some k ∨ k = j) := by
  cases best with
  | none => exact ⟨j, rfl, Or.inr rfl⟩
  | some k =>
    by_cases hle : t.reduced.get j ≤ t.reduced.get k
    · exact ⟨k, if_pos hle, Or.inl rfl⟩
    · exact ⟨j, if_neg hle, Or.inr rfl⟩

theorem foldl_steeper (cols : List (Fin n)) (best : Option (Fin n)) :
    (cols = [] ∧ cols.foldl t.steeper best = best) ∨
      ∃ k, cols.foldl t.steeper best = some k ∧ (best = some k ∨ k ∈ cols) := by
  induction cols generalizing best with
  | nil => exact Or.inl ⟨rfl, rfl⟩
  | cons j rest ih =>
    right
    obtain ⟨k, hk, hfrom⟩ := t.steeper_eq_some best j
    have hmem : best = some k ∨ k ∈ j :: rest := by
      refine hfrom.imp_right fun hkj => ?_
      rw [hkj]
      exact List.mem_cons_self
    rw [List.foldl_cons, hk]
    rcases ih (some k) with ⟨_, hsame⟩ | ⟨l, hl, heq | hin⟩
    · exact ⟨k, hsame, hmem⟩
    · exact ⟨l, hl, Option.some.inj heq ▸ hmem⟩
    · exact ⟨l, hl, Or.inr (List.mem_cons_of_mem _ hin)⟩

-- A nonempty list has a steepest column, which is one of its own.
theorem steepest?_cases (cols : List (Fin n)) :
    (cols = [] ∧ t.steepest? cols = none) ∨ ∃ k ∈ cols, t.steepest? cols = some k := by
  rw [steepest?_eq_foldl]
  rcases t.foldl_steeper cols none with hnil | ⟨k, hk, hnone | hmem⟩
  · exact Or.inl hnil
  · exact absurd hnone (by simp)
  · exact Or.inr ⟨k, hmem, hk⟩

theorem canEnter_of_entering? {bland : Bool} {q : Fin n} (h : t.entering? bland = some q) :
    t.canEnter q = true := by
  have hm : q ∈ (List.finRange n).filter t.canEnter := by
    unfold entering? at h
    cases bland with
    | true => exact List.mem_of_head? h
    | false =>
      change t.steepest? _ = some q at h
      rcases t.steepest?_cases ((List.finRange n).filter t.canEnter) with ⟨_, hn⟩ | ⟨k, hk, hs⟩
      · rw [hn] at h
        exact absurd h (by simp)
      · rw [hs] at h
        exact Option.some.inj h ▸ hk
  exact (List.mem_filter.mp hm).2

theorem entering?_eq_none {bland : Bool} :
    t.entering? bland = none ↔ ∀ j, t.canEnter j = false := by
  have hl : t.entering? bland = none ↔ (List.finRange n).filter t.canEnter = [] := by
    unfold entering?
    cases bland with
    | true => exact List.head?_eq_none_iff
    | false =>
      change t.steepest? _ = none ↔ _
      rcases t.steepest?_cases ((List.finRange n).filter t.canEnter) with ⟨hc, hn⟩ | ⟨k, hk, hs⟩
      · rw [hn, hc]
        simp
      · rw [hs]
        have hne := List.ne_nil_of_mem hk
        simp [hne]
  rw [hl, List.filter_eq_nil_iff]
  simp

end Entering

section Leaving

variable (t : Tableau ℚ m n)

theorem limit?_eq_some {q : Fin n} {i : Fin m} {length : ℚ} {atUpper : Bool} :
    t.limit? q i = some (length, atUpper) ↔
      (eps < t.entry i q ∧ atUpper = false ∧ length = max (t.rhs.get i / t.entry i q) 0) ∨
      (t.entry i q < -eps ∧ atUpper = true ∧ ∃ s, t.span.get (t.basis.get i) = some s ∧
        length = max ((s - t.rhs.get i) / -t.entry i q) 0) := by
  have heps := eps_pos
  unfold limit?
  simp only [clip_eq_max]
  split_ifs with hpos hneg
  · have hn : ¬t.entry i q < -eps := by linarith
    simp [hpos, hn, eq_comm, and_comm]
  · cases hs : t.span.get (t.basis.get i) <;> simp [hpos, hneg, eq_comm, and_comm]
  · simp [hpos, hneg]

theorem limit?_eq_none {q : Fin n} {i : Fin m} :
    t.limit? q i = none ↔
      t.entry i q ≤ eps ∧ (t.entry i q < -eps → t.span.get (t.basis.get i) = none) := by
  unfold limit?
  simp only
  split_ifs with hpos hneg
  · simp [hpos]
  · cases t.span.get (t.basis.get i) <;> simp [not_lt.mp hpos, hneg]
  · simp [not_lt.mp hpos, hneg]

theorem entry_ne_zero_of_limit? {q : Fin n} {i : Fin m} {limit : ℚ × Bool}
    (h : t.limit? q i = some limit) : t.entry i q ≠ 0 := by
  have heps := eps_pos
  intro hz
  obtain ⟨length, atUpper⟩ := limit
  rcases t.limit?_eq_some.mp h with ⟨ha, _⟩ | ⟨ha, _⟩ <;> rw [hz] at ha <;> linarith

-- What a candidate of the ratio test says about the tableau.
def Fits (q : Fin n) : Leaving ℚ m → Prop
  | .never => t.span.get q = none
  | .otherBound length => t.span.get q = some length
  | .row i atUpper length => t.limit? q i = some (length, atUpper)

theorem leaving_fits (q : Fin n) : t.Fits q (t.leaving q) := by
  unfold leaving
  refine List.foldlRecOn _ _ (motive := t.Fits q) ?_ ?_
  · cases h : t.span.get q <;> exact h
  · intro best hbest i _
    cases hl : t.limit? q i with
    | none => exact hbest
    | some limit =>
      obtain ⟨length, atUpper⟩ := limit
      simp only
      split_ifs
      · exact hl
      · exact hbest

end Leaving

-- The moves the method may make: the entering column can enter, and it ends at its own other bound
-- or at the limit that a row sets.
def Legal (t : Tableau ℚ m n) : Move ℚ m n → Prop
  | .optimal => ∀ j, t.canEnter j = false
  | .unbounded q => t.canEnter q = true ∧ t.span.get q = none
  | .flip q length => t.canEnter q = true ∧ t.span.get q = some length
  | .pivot r q atUpper length => t.canEnter q = true ∧ t.limit? q r = some (length, atUpper)

theorem move_legal (t : Tableau ℚ m n) (bland : Bool) : t.Legal (t.move bland) := by
  unfold move
  cases he : t.entering? bland with
  | none => exact t.entering?_eq_none.mp he
  | some q =>
    have hq := t.canEnter_of_entering? he
    have hl := t.leaving_fits q
    simp only
    cases hv : t.leaving q with
    | never => exact ⟨hq, by rwa [hv] at hl⟩
    | otherBound length => exact ⟨hq, by rwa [hv] at hl⟩
    | row i atUpper length => exact ⟨hq, by rwa [hv] at hl⟩

section Frame

variable (t : Tableau ℚ m n) (move : Move ℚ m n)

-- The moves change neither the bounds nor the costs.
@[simp] theorem apply_lower : (t.apply move).lower = t.lower := by
  cases move with
  | pivot r q atUpper length => cases atUpper <;> rfl
  | _ => rfl

@[simp] theorem apply_span : (t.apply move).span = t.span := by
  cases move with
  | pivot r q atUpper length => cases atUpper <;> rfl
  | _ => rfl

@[simp] theorem apply_costs : (t.apply move).costs = t.costs := by
  cases move with
  | pivot r q atUpper length => cases atUpper <;> rfl
  | _ => rfl

theorem apply_pivot_basis (r : Fin m) (q : Fin n) (atUpper : Bool) (length : ℚ) (i : Fin m) :
    (t.apply (.pivot r q atUpper length)).basis.get i = if i = r then q else t.basis.get i := by
  cases atUpper <;> exact pivot_basis _ r q i

end Frame

-- A fact that every step keeps holds at the end of a run.
theorem runFrom_induction {P : Tableau ℚ m n → Prop}
    (hstep : ∀ t bland, P t → P (t.iterate bland).2) (iterations stalled : ℕ)
    (t : Tableau ℚ m n) (ht : P t) : P (t.runFrom iterations stalled).2 := by
  induction iterations generalizing stalled t with
  | zero => exact ht
  | succ iterations ih =>
    have hnext := hstep t (stallLimit ≤ stalled) ht
    unfold runFrom
    split
    · rename_i he
      rwa [he] at hnext
    · rename_i he
      rwa [he] at hnext
    · rename_i he
      rw [he] at hnext
      exact ih _ _ hnext

@[simp] theorem runFrom_span (iterations stalled : ℕ) (t : Tableau ℚ m n) :
    (t.runFrom iterations stalled).2.span = t.span :=
  runFrom_induction (P := fun u => u.span = t.span)
    (fun _ _ h => (apply_span _ _).trans h) iterations stalled t rfl

@[simp] theorem runFrom_costs (iterations stalled : ℕ) (t : Tableau ℚ m n) :
    (t.runFrom iterations stalled).2.costs = t.costs :=
  runFrom_induction (P := fun u => u.costs = t.costs)
    (fun _ _ h => (apply_costs _ _).trans h) iterations stalled t rfl

theorem move_eq_optimal {t u : Tableau ℚ m n} {bland : Bool}
    (h : t.iterate bland = (.optimal, u)) : t.move bland = .optimal := by
  have hstep : (t.move bland).step = .optimal := congrArg Prod.fst h
  cases hm : t.move bland with
  | optimal => rfl
  | _ => exact absurd (hm ▸ hstep) (by simp [Move.step])

theorem exists_move_eq_unbounded {t u : Tableau ℚ m n} {bland : Bool}
    (h : t.iterate bland = (.unbounded, u)) : ∃ q, t.move bland = .unbounded q := by
  have hstep : (t.move bland).step = .unbounded := congrArg Prod.fst h
  cases hm : t.move bland with
  | unbounded q => exact ⟨q, rfl⟩
  | _ => exact absurd (hm ▸ hstep) (by simp [Move.step])

theorem canEnter_of_runFrom_optimal (iterations stalled : ℕ) (t : Tableau ℚ m n)
    (h : (t.runFrom iterations stalled).1 = .optimal) (j : Fin n) :
    (t.runFrom iterations stalled).2.canEnter j = false := by
  obtain ⟨k, _, hends⟩ := exists_concludes iterations stalled t (by rw [h]; decide)
  rw [h] at hends
  cases hends with
  | @optimal stalled' u _ last =>
    have hlegal := (t.runFrom iterations stalled).2.move_legal (stallLimit ≤ stalled')
    rw [move_eq_optimal last] at hlegal
    exact hlegal j

-- The tableaux that any sequence of steps, new costs and pinned columns leads to. A column may be
-- pinned while it is measured from its lower bound.
inductive Reaches (start : Tableau ℚ m n) : Tableau ℚ m n → Prop
  | refl : Reaches start start
  | iterate {t : Tableau ℚ m n} (bland : Bool) :
      Reaches start t → Reaches start (t.iterate bland).2
  | setCosts {t : Tableau ℚ m n} (costs : Vector ℚ n) :
      Reaches start t → Reaches start (t.setCosts costs)
  | fixColumns {t : Tableau ℚ m n} (cols : List (Fin n))
      (hc : ∀ j ∈ cols, t.complemented.get j = false) :
      Reaches start t → Reaches start (t.fixColumns cols)

theorem Reaches.runFrom {start t : Tableau ℚ m n} (h : Reaches start t)
    (iterations stalled : ℕ) : Reaches start (t.runFrom iterations stalled).2 :=
  runFrom_induction (fun _ bland h => h.iterate bland) iterations stalled t h

end Tableau

end LinearProgram
