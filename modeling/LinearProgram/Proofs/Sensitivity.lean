import LinearProgram.Proofs.Solving
import LinearProgram.Sensitivity

namespace LinearProgram

-- The change keeps to both ends.
structure CostChange.Allows (change : CostChange ℚ) (d : ℚ) : Prop where
  fall : ∀ l, change.fall = some l → l ≤ d
  rise : ∀ u, change.rise = some u → d ≤ u

structure CostRange.Contains (r : CostRange ℚ) (c : ℚ) : Prop where
  low : ∀ l, r.low = some l → l ≤ c
  high : ∀ u, r.high = some u → c ≤ u

namespace Tableau

variable {m n : ℕ}

-- What a unit of the cost of column `j` adds to the price of a nonbasic column `k`. A basic column
-- acts through its row, and another column on itself alone.
def sway (t : Tableau ℚ m n) (j k : Fin n) : ℚ :=
  match t.rowOf? j with
  | some i => -t.signedEntry i j k
  | none => if k = j then (if t.complemented.get j then -1 else 1) else 0

-- The tableau priced anew with another cost of column `j`.
def withCost (t : Tableau ℚ m n) (j : Fin n) (c : ℚ) : Tableau ℚ m n :=
  t.setCosts (t.costs.set j c)

section Price

variable {t : Tableau ℚ m n}

theorem set_get (x : Vector ℚ n) (j k : Fin n) (c : ℚ) :
    (x.set j c).get k = if k = j then c else x.get k := by
  change (x.set j c)[k.val] = if k = j then c else x[k.val]
  rw [Vector.getElem_set]
  by_cases hk : k = j
  · simp [hk]
  · have hne : j.val ≠ k.val := fun he => hk (Fin.ext he.symm)
    simp [hk, hne]

theorem withCost_signedCost (j k : Fin n) (c : ℚ) :
    (t.withCost j c).signedCost k = t.signedCost k +
      if k = j then (if t.complemented.get j then -(c - t.costs.get j) else c - t.costs.get j)
      else 0 := by
  have hcost : (t.withCost j c).costs.get k = if k = j then c else t.costs.get k :=
    set_get t.costs j k c
  have hturned : (t.withCost j c).complemented = t.complemented := rfl
  unfold signedCost
  rw [hcost, hturned]
  by_cases hk : k = j
  · subst hk
    rw [if_pos rfl, if_pos rfl]
    split_ifs <;> ring
  · rw [if_neg hk, if_neg hk, add_zero]

-- The new price of a nonbasic column.
theorem withCost_reduced (h : t.Canonical) (hp : t.Priced) (j : Fin n) (c : ℚ) {k : Fin n}
    (hk : t.isBasic k = false) :
    (t.withCost j c).reduced.get k = t.reduced.get k + (c - t.costs.get j) * t.sway j k := by
  have hnew : (t.withCost j c).Priced := reprice_priced h
  have hbasis : (t.withCost j c).basis = t.basis := rfl
  have hentry : ∀ i, (t.withCost j c).entry i k = t.entry i k := fun _ => rfl
  rw [hnew.reduced, hp.reduced]
  unfold price
  simp only [hbasis, hentry, withCost_signedCost, add_mul, Finset.sum_add_distrib]
  unfold sway
  cases hrow : t.rowOf? j with
  | some i =>
    have hi : t.basis.get i = j := (rowOf?_eq_some h.injective).mp hrow
    have hne : k ≠ j := by
      rintro rfl
      exact (t.isBasic_eq_false k).mp hk i hi
    have hsum : ∀ d : ℚ, ∑ l, (if t.basis.get l = j then d else 0) * t.entry l k =
        d * t.entry i k := by
      intro d
      rw [Finset.sum_eq_single i]
      · rw [if_pos hi]
      · intro l _ hl
        rw [if_neg fun he => hl (h.injective (he.trans hi.symm)), zero_mul]
      · exact fun hout => absurd (Finset.mem_univ i) hout
    rw [hsum, if_neg hne]
    unfold signedEntry
    split_ifs <;> ring
  | none =>
    have hfree : ∀ l, t.basis.get l ≠ j := rowOf?_eq_none.mp hrow
    simp only [hfree, if_false, zero_mul, Finset.sum_const_zero]
    split_ifs <;> ring

end Price

section Change

variable {t : Tableau ℚ m n} {i : Fin m} {j k : Fin n} {d : ℚ}

theorem tightenLower_iff {limit : Option ℚ} {value x : ℚ} :
    (∀ l, tightenLower limit value = some l → l ≤ x) ↔
      (∀ l, limit = some l → l ≤ x) ∧ value ≤ x := by
  cases limit with
  | none => simp [tightenLower]
  | some l => simp [tightenLower]

-- The change after column `k` has been looked at.
def narrowed (t : Tableau ℚ m n) (i : Fin m) (j : Fin n) (change : CostChange ℚ) (k : Fin n) :
    CostChange ℚ :=
  if t.signedEntry i j k < 0 then
    { change with rise := tightenUpper change.rise (t.reduced.get k / t.signedEntry i j k) }
  else
    { change with fall := tightenLower change.fall (t.reduced.get k / t.signedEntry i j k) }

theorem basicChange_eq_foldl (t : Tableau ℚ m n) (i : Fin m) (j : Fin n) :
    t.basicChange i j =
      ((List.finRange n).filter (t.restricts i j)).foldl (t.narrowed i j) ⟨none, none⟩ := rfl

theorem restricts_iff : t.restricts i j k = true ↔
    k ≠ j ∧ t.isBasic k = false ∧ t.isMovable k = true ∧ eps < |t.signedEntry i j k| := by
  simp [restricts, and_assoc]

-- Each column adds that its own price is not above zero.
theorem narrowed_allows_iff (hk : t.signedEntry i j k ≠ 0) {change : CostChange ℚ} :
    (t.narrowed i j change k).Allows d ↔
      change.Allows d ∧ t.reduced.get k - d * t.signedEntry i j k ≤ 0 := by
  unfold narrowed
  rw [sub_nonpos]
  split_ifs with hneg
  · have hrise : (∀ u, tightenUpper change.rise (t.reduced.get k / t.signedEntry i j k) = some u →
        d ≤ u + 0) ↔ _ := Bounds.tightenUpper_iff
    simp only [add_zero, le_div_iff_of_neg hneg] at hrise
    exact ⟨fun h => ⟨⟨h.fall, (hrise.mp h.rise).1⟩, (hrise.mp h.rise).2⟩,
      fun h => ⟨h.1.fall, hrise.mpr ⟨h.1.rise, h.2⟩⟩⟩
  · have hpos : 0 < t.signedEntry i j k := lt_of_le_of_ne (not_lt.mp hneg) hk.symm
    have hfall : (∀ l, tightenLower change.fall (t.reduced.get k / t.signedEntry i j k) = some l →
        l ≤ d) ↔ _ := tightenLower_iff
    rw [div_le_iff₀ hpos] at hfall
    exact ⟨fun h => ⟨⟨(hfall.mp h.fall).1, h.rise⟩, (hfall.mp h.fall).2⟩,
      fun h => ⟨hfall.mpr ⟨h.1.fall, h.2⟩, h.1.rise⟩⟩

theorem foldl_narrowed_allows_iff {cols : List (Fin n)}
    (hcols : ∀ k ∈ cols, t.signedEntry i j k ≠ 0) (change : CostChange ℚ) :
    (cols.foldl (t.narrowed i j) change).Allows d ↔
      change.Allows d ∧ ∀ k ∈ cols, t.reduced.get k - d * t.signedEntry i j k ≤ 0 := by
  induction cols generalizing change with
  | nil => simp
  | cons k rest ih =>
    obtain ⟨hk, hrest⟩ := List.forall_mem_cons.mp hcols
    rw [List.foldl_cons, ih hrest, narrowed_allows_iff hk, List.forall_mem_cons, and_assoc]

theorem allows_unlimited (d : ℚ) : CostChange.Allows ⟨none, none⟩ d :=
  ⟨fun _ h => absurd h (by simp), fun _ h => absurd h (by simp)⟩

theorem allows_fall (l d : ℚ) : CostChange.Allows ⟨some l, none⟩ d ↔ l ≤ d :=
  ⟨fun h => h.fall l rfl, fun h =>
    ⟨fun _ he => (Option.some.inj he) ▸ h, fun _ he => absurd he (by simp)⟩⟩

theorem allows_rise (u d : ℚ) : CostChange.Allows ⟨none, some u⟩ d ↔ d ≤ u :=
  ⟨fun h => h.rise u rfl, fun h =>
    ⟨fun _ he => absurd he (by simp), fun _ he => (Option.some.inj he) ▸ h⟩⟩

theorem basicChange_allows_iff :
    (t.basicChange i j).Allows d ↔
      ∀ k, t.restricts i j k = true → t.reduced.get k - d * t.signedEntry i j k ≤ 0 := by
  have hcols : ∀ k ∈ (List.finRange n).filter (t.restricts i j), t.signedEntry i j k ≠ 0 := by
    intro k hk
    have hlarge := (restricts_iff.mp (List.mem_filter.mp hk).2).2.2.2
    exact abs_pos.mp (eps_pos.trans hlarge)
  rw [basicChange_eq_foldl, foldl_narrowed_allows_iff hcols]
  simp [allows_unlimited]

-- A column that is not basic acts on its own price alone.
theorem nonbasic_prices_iff (hj : t.isBasic j = false) {sign : ℚ} (hsign : |sign| = 1) :
    (∀ k, t.isBasic k = false → t.isMovable k = true → eps < |if k = j then sign else 0| →
      t.reduced.get k + d * (if k = j then sign else 0) ≤ 0) ↔
      (t.isMovable j = true → t.reduced.get j + d * sign ≤ 0) := by
  have heps := eps_pos
  constructor
  · intro hall hmove
    have hlarge : eps < |sign| := by
      rw [hsign]
      norm_num [eps]
    simpa using hall j hj hmove (by simpa using hlarge)
  · intro hall k _ hmove hlarge
    by_cases hk : k = j
    · subst hk
      simpa using hall hmove
    · rw [if_neg hk, abs_zero] at hlarge
      exact absurd hlarge heps.not_gt

-- A change is allowed just when no price that depends on the cost by more than the tolerance comes
-- to lie above zero.
theorem costChange_allows_iff (h : t.Canonical) :
    (t.costChange j).Allows d ↔ ∀ k, t.isBasic k = false → t.isMovable k = true →
      eps < |t.sway j k| → t.reduced.get k + d * t.sway j k ≤ 0 := by
  unfold costChange sway
  cases hrow : t.rowOf? j with
  | some i =>
    have hi : t.basis.get i = j := (rowOf?_eq_some h.injective).mp hrow
    simp only [basicChange_allows_iff, restricts_iff, abs_neg, mul_neg, ← sub_eq_add_neg]
    refine forall_congr' fun k => ⟨fun hall hk hmove hlarge => ?_, fun hall hk => ?_⟩
    · refine hall ⟨?_, hk, hmove, hlarge⟩
      rintro rfl
      exact (t.isBasic_eq_false k).mp hk i hi
    · exact hall hk.2.1 hk.2.2.1 hk.2.2.2
  | none =>
    have hj : t.isBasic j = false := (t.isBasic_eq_false j).mpr (rowOf?_eq_none.mp hrow)
    rw [nonbasic_prices_iff hj (by split_ifs <;> simp)]
    cases hmove : t.isMovable j with
    | false => simp [allows_unlimited]
    | true =>
      cases t.complemented.get j with
      | true =>
        rw [if_neg (by decide), if_pos rfl, if_pos rfl, allows_fall]
        constructor <;> intro hd
        · exact fun _ => by linarith
        · linarith [hd rfl]
      | false =>
        rw [if_neg (by decide), if_neg (by decide), if_neg (by decide), allows_rise]
        constructor <;> intro hd
        · exact fun _ => by linarith
        · linarith [hd rfl]

end Change

end Tableau

-- A cost lies in the range just when the change to it is allowed.
theorem CostRange.contains_iff (r : CostRange ℚ) (c : ℚ) :
    r.Contains c ↔ r.change.Allows (c - r.coefficient) := by
  have hlow : r.low = r.change.fall.map fun d => r.coefficient + d := by
    unfold low
    cases r.change.fall <;> simp
  have hhigh : r.high = r.change.rise.map fun d => r.coefficient + d := by
    unfold high
    cases r.change.rise <;> simp
  constructor
  · rintro ⟨hl, hu⟩
    refine ⟨fun d hd => ?_, fun d hd => ?_⟩
    · linarith [hl (r.coefficient + d) (by simp [hlow, hd])]
    · linarith [hu (r.coefficient + d) (by simp [hhigh, hd])]
  · rintro ⟨hf, hr⟩
    refine ⟨fun l hl => ?_, fun u hu => ?_⟩
    · obtain ⟨d, hd, rfl⟩ := Option.map_eq_some_iff.mp (hlow ▸ hl)
      linarith [hf d hd]
    · obtain ⟨d, hd, rfl⟩ := Option.map_eq_some_iff.mp (hhigh ▸ hu)
      linarith [hr d hd]

section Ranges

variable {m : Model ℚ} {s : Solution ℚ} {folded : Bounds ℚ m.vars.length} {o : Objective ℚ}
  {row : Fin s.form.rows → Constraint ℚ}

theorem costRanges_length (hs : s.model = m) (hof : s.form.Of m folded o row) :
    s.costRanges.length = m.vars.length := by
  have hle := hof.equalities.le
  simp [Solution.costRanges, Solution.coefficients, hs, hle]

-- The range of a column is about its cost in the tableau.
theorem costRanges_getElem? (hs : s.model = m) (hof : s.form.Of m folded o row)
    {j : Fin s.form.cols} (hj : j.val < m.vars.length) :
    s.costRanges[j.val]? = some ⟨s.form.costs.get j, s.tableau.costChange j⟩ := by
  subst hs
  have hindex : (s.model.vars.get ⟨j, hj⟩).index = j := hof.wellFormed.index j hj
  have hget : (s.form.model.costs s.model.vars).get ⟨j, hj⟩ = s.form.costs.get j := by
    unfold Model.costs
    rw [hof.normalObjective, hof.encodes.costs _ hof.normalObjective]
    simp only
    rw [Expression.factors_get _ (nodup_index hof.wellFormed.index), hindex]
  have hcost : s.coefficients[j.val]? = some (s.form.costs.get j) := by
    refine List.getElem?_eq_some_iff.mpr ⟨by simpa [Solution.coefficients] using hj, ?_⟩
    rw [← hget]
    exact Vector.getElem_toList _
  unfold Solution.costRanges
  rw [List.getElem?_zipWith]
  simp [hcost]

end Ranges

-- Within its range a cost leaves no price above zero that depends on it by more than the tolerance,
-- and hardly changes the others. Outside of the range some price lies above zero.
theorem costRanges_sound_and_tight {solver : Solver} {m : Model ℚ} (hm : m.WellFormed)
    {s : Solution ℚ} (h : solver.solve m = .ok s) :
    s.costRanges.length = m.vars.length ∧ ∀ k < m.vars.length,
      ∃ (j : Fin s.form.cols) (r : CostRange ℚ) (o : Objective ℚ), j.val = k ∧
        s.costRanges[k]? = some r ∧ m.objective = some o ∧
        r.coefficient = o.asMaximize.expression.coefficient k ∧
        (∀ c, r.Contains c → ∀ l, s.tableau.isBasic l = false → s.tableau.isMovable l = true →
          (eps < |s.tableau.sway j l| → (s.tableau.withCost j c).reduced.get l ≤ 0) ∧
          (|s.tableau.sway j l| ≤ eps →
            |(s.tableau.withCost j c).reduced.get l - s.tableau.reduced.get l| ≤
              eps * |c - r.coefficient|)) ∧
        ∀ c, ¬r.Contains c → ∃ l, s.tableau.isBasic l = false ∧ s.tableau.isMovable l = true ∧
          0 < (s.tableau.withCost j c).reduced.get l := by
  have hs := arises_of_solve hm h
  obtain ⟨folded, o, row, hof⟩ := ofModel_eq_ok hm hs.form
  have hcanonical := (hs.reaches.keeps hof.start_consistent).consistent.canonical
  have hpriced := hs.reaches.priced hof.start_consistent hof.start_priced
  refine ⟨costRanges_length hs.model hof, fun k hk => ?_⟩
  let j : Fin s.form.cols := ⟨k, hk.trans_le hof.equalities.le⟩
  have hnew : ∀ c l, s.tableau.isBasic l = false → (s.tableau.withCost j c).reduced.get l =
      s.tableau.reduced.get l + (c - s.form.costs.get j) * s.tableau.sway j l := by
    intro c l hl
    rw [Tableau.withCost_reduced hcanonical hpriced j c hl, hs.costs]
  refine ⟨j, _, o, rfl, costRanges_getElem? (j := j) hs.model hof hk, hof.objective, ?_,
    fun c hc l hl hmove => ⟨fun hlarge => ?_, fun hsmall => ?_⟩, fun c hc => ?_⟩
  · exact (hof.encodes.costs _ hof.normalObjective j).trans (coefficient_asMaximize o k)
  · rw [CostRange.contains_iff, Tableau.costChange_allows_iff hcanonical] at hc
    rw [hnew c l hl]
    exact hc l hl hmove hlarge
  · rw [hnew c l hl, add_sub_cancel_left, abs_mul, mul_comm]
    exact mul_le_mul_of_nonneg_right hsmall (abs_nonneg _)
  · rw [CostRange.contains_iff, Tableau.costChange_allows_iff hcanonical] at hc
    push Not at hc
    obtain ⟨l, hl, hmove, _, hpositive⟩ := hc
    exact ⟨l, hl, hmove, by rwa [hnew c l hl]⟩

-- At the optimum `y` is at its upper bound and complemented, and `x` is basic. A cost of 8 for `x`
-- is past the end of its range.
theorem costRanges_sound_and_tight_of_upper_bound :
    let v : Variable := ⟨"x", 0⟩
    let w : Variable := ⟨"y", 1⟩
    let m : Model ℚ := {
      vars := [v, w]
      constraints := [⟨⟨[⟨v, 1⟩]⟩, .le, 4, none, none⟩, ⟨⟨[⟨w, 2⟩]⟩, .le, 12, none, none⟩,
        ⟨⟨[⟨v, 3⟩, ⟨w, 2⟩]⟩, .le, 18, none, none⟩]
      objective := some ⟨⟨[⟨v, 3⟩, ⟨w, 5⟩]⟩, .maximize⟩ }
    m.WellFormed ∧ ∃ s r j, Solver.solve ⟨10⟩ m = .ok s ∧ s.costRanges[0]? = some r ∧ j.val = 0 ∧
      r.low = some 0 ∧ r.high = some (15 / 2) ∧
      (∀ l, s.tableau.isBasic l = false → s.tableau.isMovable l = true →
        eps < |s.tableau.sway j l| → (s.tableau.withCost j 7).reduced.get l ≤ 0) ∧
      ∃ l, s.tableau.isBasic l = false ∧ s.tableau.isMovable l = true ∧
        0 < (s.tableau.withCost j 8).reduced.get l := by
  intro v w m
  have hm : m.WellFormed := by decide
  obtain ⟨s, hs, hcheck⟩ : ∃ s, Solver.solve ⟨10⟩ m = .ok s ∧
      decide (s.costRanges[0]?.map CostRange.low = some (some 0) ∧
        s.costRanges[0]?.map CostRange.high = some (some (15 / 2))) = true :=
    exists_eq_ok_and (by decide +kernel)
  obtain ⟨hlow, hhigh⟩ := of_decide_eq_true hcheck
  obtain ⟨_, hranges⟩ := costRanges_sound_and_tight hm hs
  obtain ⟨j, r, o, hj, hr, _, _, hinside, houtside⟩ := hranges 0 (by decide)
  rw [hr] at hlow hhigh
  have hl : r.low = some 0 := Option.some.inj hlow
  have hu : r.high = some (15 / 2) := Option.some.inj hhigh
  have hseven : r.Contains 7 := by
    refine ⟨fun l he => ?_, fun u he => ?_⟩
    · obtain rfl := Option.some.inj (hl.symm.trans he)
      norm_num
    · obtain rfl := Option.some.inj (hu.symm.trans he)
      norm_num
  have height : ¬r.Contains 8 := fun h => absurd (h.high _ hu) (by norm_num)
  exact ⟨hm, s, r, j, hs, hr, hj, hl, hu, fun l hb hmove => (hinside 7 hseven l hb hmove).1,
    houtside 8 height⟩

end LinearProgram
