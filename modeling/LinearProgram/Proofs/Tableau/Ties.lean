import LinearProgram.Proofs.Tableau.RatioTest
import LinearProgram.Tableau.Start

namespace LinearProgram

deriving instance DecidableEq for Leaving

namespace Tableau

variable {m n : ℕ} (t : Tableau ℚ m n)

section Limits

-- Row `i` stops column `q` after this length, at the upper bound of its basic column or at the
-- lower.
inductive Stops (q : Fin n) (i : Fin m) : Bool → ℚ → Prop
  | atLower (h : eps < t.entry i q) : Stops q i false (max (t.rhs.get i / t.entry i q) 0)
  | atUpper {s : ℚ} (h : t.entry i q < -eps) (hs : t.span.get (t.basis.get i) = some s) :
      Stops q i true (max ((s - t.rhs.get i) / -t.entry i q) 0)

-- The entry is large enough, and the basic column has a bound on the side that it moves to.
def Eligible (q : Fin n) (i : Fin m) : Prop :=
  eps < t.entry i q ∨ t.entry i q < -eps ∧ (t.span.get (t.basis.get i)).isSome = true

instance (q : Fin n) (i : Fin m) : Decidable (t.Eligible q i) :=
  inferInstanceAs (Decidable (_ ∨ _ ∧ _))

-- The lengths that the column could go: to its own other bound, and to where a row stops it.
def limits (q : Fin n) : Set ℚ :=
  {length | t.span.get q = some length ∨ ∃ i atUpper, t.Stops q i atUpper length}

variable {t} {q : Fin n} {i : Fin m}

theorem stops_iff {atUpper : Bool} {length : ℚ} :
    t.Stops q i atUpper length ↔ t.limit? q i = some (length, atUpper) := by
  rw [limit?_eq_some]
  constructor
  · rintro (hlow | ⟨hup, hs⟩)
    · exact Or.inl ⟨hlow, rfl, rfl⟩
    · exact Or.inr ⟨hup, rfl, _, hs, rfl⟩
  · rintro (⟨hlow, rfl, rfl⟩ | ⟨hup, rfl, s, hs, rfl⟩)
    · exact .atLower hlow
    · exact .atUpper hup hs

theorem not_eligible_iff : ¬t.Eligible q i ↔ t.limit? q i = none := by
  rw [limit?_eq_none]
  simp [Eligible]

theorem limit?_nonneg {length : ℚ} {atUpper : Bool} (h : t.limit? q i = some (length, atUpper)) :
    0 ≤ length := by
  rcases t.limit?_eq_some.mp h with ⟨_, _, rfl⟩ | ⟨_, _, _, _, rfl⟩ <;> exact le_max_right _ _

theorem isShorter_row {length best : ℚ} {r : Fin m} {atUpper : Bool} :
    t.isShorter i length (.row r atUpper best) = true ↔
      length < best - eps ∨ |length - best| ≤ eps ∧ t.basis.get i < t.basis.get r := by
  simp [isShorter]

end Limits

section Own

variable {t} {q : Fin n}

-- A column that no row stops before its own bound goes there, if it has one.
theorem leaving_eq_ownLimit
    (h : ∀ i length atUpper, t.limit? q i = some (length, atUpper) →
      t.isShorter i length (t.ownLimit q) = false) : t.leaving q = t.ownLimit q := by
  rw [leaving_eq_foldl]
  refine List.foldlRecOn _ _ (motive := fun best => best = t.ownLimit q) rfl ?_
  rintro _ rfl i _
  unfold challenge
  cases hl : t.limit? q i with
  | none => rfl
  | some limit =>
    obtain ⟨length, atUpper⟩ := limit
    simp [h i length atUpper hl]

theorem leaving_eq_never_iff :
    t.leaving q = .never ↔ t.span.get q = none ∧ ∀ i, ¬t.Eligible q i := by
  constructor
  · intro h
    have hfits := t.leaving_fits q
    rw [h] at hfits
    exact ⟨hfits, fun i => not_eligible_iff.mpr (t.limit?_eq_none_of_leaving h i)⟩
  · rintro ⟨hspan, hrows⟩
    have hown : t.ownLimit q = .never := by
      unfold ownLimit
      rw [hspan]
    rw [← hown]
    refine leaving_eq_ownLimit fun i length atUpper hl => ?_
    rw [not_eligible_iff.mp (hrows i)] at hl
    exact absurd hl (by simp)

theorem leaving_eq_otherBound {s : ℚ} (hspan : t.span.get q = some s)
    (hleast : ∀ length ∈ t.limits q, s ≤ length) : t.leaving q = .otherBound s := by
  have hown : t.ownLimit q = .otherBound s := by
    unfold ownLimit
    rw [hspan]
  rw [← hown]
  refine leaving_eq_ownLimit fun i length atUpper hl => ?_
  have hle : s ≤ length := hleast length (Or.inr ⟨i, atUpper, stops_iff.mpr hl⟩)
  have hlarge : ¬length < s - eps := by linarith [eps_pos]
  rw [hown]
  simpa [isShorter] using hlarge

end Own

section Ties

-- A row that wins a tie against a limit within the tolerance has such a limit itself. The ties of a
-- column that goes nowhere then lead to no row that a later one of no length would be shorter than.
def TiesStayLow (q : Fin n) : Prop :=
  ∀ i k, t.basis.get k < t.basis.get i → ∀ a ∈ t.limit? q i, ∀ b ∈ t.limit? q k,
    a.1 ≤ eps → b.1 ≤ a.1 + eps → b.1 ≤ eps

instance (q : Fin n) : Decidable (t.TiesStayLow q) :=
  inferInstanceAs (Decidable (∀ i k, t.basis.get k < t.basis.get i → ∀ a ∈ t.limit? q i,
    ∀ b ∈ t.limit? q k, a.1 ≤ eps → b.1 ≤ a.1 + eps → b.1 ≤ eps))

-- The candidate lets the column go no further than the tolerance. If it is a row, its basic column
-- is no larger than that of row `i`.
def Precedes (i : Fin m) : Leaving ℚ m → Prop
  | .never => False
  | .otherBound length => length ≤ eps
  | .row r _ length => length ≤ eps ∧ t.basis.get r ≤ t.basis.get i

variable {t} {q : Fin n} {i : Fin m} {best : Leaving ℚ m}

-- A row of no length is taken unless the candidate is within the tolerance and has the smaller
-- column.
theorem precedes_challenge_self {atUpper : Bool} (hl : t.limit? q i = some (0, atUpper))
    (hfits : t.Fits q best) : t.Precedes i (t.challenge q best i) := by
  unfold challenge
  rw [hl]
  simp only
  split_ifs with hs
  · exact ⟨eps_nonneg, le_rfl⟩
  · cases best with
    | never => simp [isShorter] at hs
    | otherBound length =>
      have hle : 0 ≥ length - eps := by simpa [isShorter] using hs
      change length ≤ eps
      linarith
    | row r side length =>
      rw [isShorter_row] at hs
      push Not at hs
      have hle : length ≤ eps := by linarith [hs.1]
      refine ⟨hle, hs.2 ?_⟩
      rwa [zero_sub, abs_neg, abs_of_nonneg (limit?_nonneg hfits)]

-- Another row takes its place only by a tie, which leads to a smaller basic column.
theorem Precedes.challenge (h : t.Precedes i best) (hties : t.TiesStayLow q)
    (hfits : t.Fits q best) (k : Fin m) : t.Precedes i (t.challenge q best k) := by
  unfold Tableau.challenge
  cases hl : t.limit? q k with
  | none => exact h
  | some limit =>
    obtain ⟨length, atUpper⟩ := limit
    have hnonneg := limit?_nonneg hl
    simp only
    split_ifs with hs
    · cases best with
      | never => exact h.elim
      | otherBound former =>
        have hle : former ≤ eps := h
        have hlt : length < former - eps := by simpa [isShorter] using hs
        linarith
      | row r side former =>
        obtain ⟨hle, hcol⟩ := h
        rcases isShorter_row.mp hs with hlt | ⟨htie, hcol'⟩
        · linarith
        · have hnear : length ≤ former + eps := by linarith [(abs_le.mp htie).2]
          exact ⟨hties r k hcol' _ hfits _ hl hle hnear, hcol'.le.trans hcol⟩
    · exact h

theorem Precedes.foldl (hties : t.TiesStayLow q) (rows : List (Fin m)) (h : t.Precedes i best)
    (hfits : t.Fits q best) : t.Precedes i (rows.foldl (t.challenge q) best) := by
  induction rows generalizing best with
  | nil => exact h
  | cons k rest ih => exact ih (h.challenge hties hfits k) (t.challenge_fits hfits k)

theorem precedes_foldl_of_mem (hties : t.TiesStayLow q) {rows : List (Fin m)} (hi : i ∈ rows)
    {atUpper : Bool} (hl : t.limit? q i = some (0, atUpper)) (hfits : t.Fits q best) :
    t.Precedes i (rows.foldl (t.challenge q) best) := by
  induction rows generalizing best with
  | nil => exact absurd hi List.not_mem_nil
  | cons k rest ih =>
    rw [List.foldl_cons]
    rcases List.mem_cons.mp hi with rfl | hrest
    · exact Precedes.foldl hties rest (precedes_challenge_self hl hfits) (t.challenge_fits hfits i)
    · exact ih hrest (t.challenge_fits hfits k)

-- The row that is left precedes every row that lets the column go nowhere.
theorem leaving_precedes (hties : t.TiesStayLow q) {atUpper : Bool}
    (hl : t.limit? q i = some (0, atUpper)) : t.Precedes i (t.leaving q) := by
  rw [leaving_eq_foldl]
  exact precedes_foldl_of_mem hties (List.mem_finRange i) hl (t.ownLimit_fits q)

end Ties

section Choice

variable {t} {q : Fin n}

theorem length_le_of_mem_limits {length l : ℚ} (h : (t.leaving q).length? = some length)
    (hl : l ∈ t.limits q) : length ≤ l + m * eps := by
  have haccurate := t.accurate_of_leaving (t.sharp_eps q) eps_nonneg h
  rcases hl with hspan | ⟨i, atUpper, hstops⟩
  · exact haccurate.span l hspan
  · exact haccurate.limit i l atUpper (stops_iff.mp hstops)

end Choice

-- The movement goes on for ever exactly when nothing can end it. It ends at a limit of the column
-- or of the row that is left, which is the shortest but for the tolerance of one tie for each row,
-- and at the column's own other bound if that is the shortest. Of the rows that let the column go
-- nowhere, the one with the smallest basic column is left, unless ties lead away from it.
theorem ratio_test_accurate (q : Fin n) :
    (t.leaving q = .never ↔ t.span.get q = none ∧ ∀ i, ¬t.Eligible q i) ∧
    (∀ length, t.leaving q = .otherBound length → t.span.get q = some length) ∧
    (∀ r atUpper length, t.leaving q = .row r atUpper length → t.Stops q r atUpper length) ∧
    (∀ length, (t.leaving q).length? = some length → ∀ l ∈ t.limits q, length ≤ l + m * eps) ∧
    (∀ s, t.span.get q = some s → (∀ l ∈ t.limits q, s ≤ l) → t.leaving q = .otherBound s) ∧
    (t.TiesStayLow q → ∀ r atUpper, t.leaving q = .row r atUpper 0 →
      ∀ i side, t.Stops q i side 0 → t.basis.get r ≤ t.basis.get i) := by
  have hfits := t.leaving_fits q
  refine ⟨leaving_eq_never_iff, fun length h => ?_, fun r atUpper length h => ?_,
    fun length h l => length_le_of_mem_limits h, fun s hspan => leaving_eq_otherBound hspan,
    fun hties r atUpper h i side hstops => ?_⟩
  · rwa [h] at hfits
  · rw [h] at hfits
    exact stops_iff.mpr hfits
  · have hprecedes := leaving_precedes hties (stops_iff.mp hstops)
    rw [h] at hprecedes
    exact hprecedes.2

-- Column 4 goes nowhere: the row of column 0, which is at its upper bound, is left for those of the
-- columns 2 and 1 before it, and the row of column 3 is longer by less than the tolerance. Column 5
-- goes to its own bound, and nothing stops column 6.
theorem ratio_test_accurate_of_near_ties :
    let t : Tableau ℚ 4 7 := start
      #v[#v[0, 0, 1, 0, 1, 0, -1], #v[0, 1, 0, 0, 1, 0, 0], #v[1, 0, 0, 0, -1, 1, 0],
        #v[0, 0, 0, 1, 1, 0, 0]]
      #v[0, 0, 4, 1 / 2 ^ 30] #v[0, 0, 0, 0, 1, 1, 1] (Vector.replicate 7 0)
      #v[some 4, none, none, none, none, some 3, none] #v[2, 1, 0, 3]
    t.TiesStayLow 4 ∧ t.leaving 4 = .row 2 true 0 ∧ t.Stops 4 2 true 0 ∧
      (∀ i side, t.Stops 4 i side 0 → t.basis.get 2 ≤ t.basis.get i) ∧
      (∀ l ∈ t.limits 4, 0 ≤ l + (4 : ℕ) * eps) ∧
      t.leaving 5 = .otherBound 3 ∧ t.leaving 6 = .never ∧ ∀ i, ¬t.Eligible 6 i := by
  intro t
  have hties : t.TiesStayLow 4 := by decide +kernel
  have hleaving : t.leaving 4 = .row 2 true 0 := by decide +kernel
  obtain ⟨_, _, hrow, hlength, _, hsmallest⟩ := t.ratio_test_accurate 4
  obtain ⟨_, _, _, _, hflip, _⟩ := t.ratio_test_accurate 5
  obtain ⟨hnever, _⟩ := t.ratio_test_accurate 6
  have hspan : t.span.get 5 = some 3 := by decide +kernel
  have hleast : ∀ l ∈ t.limits 5, (3 : ℚ) ≤ l := by
    have hrows : ∀ i, ∀ limit ∈ t.limit? 5 i, (3 : ℚ) ≤ limit.1 := by decide +kernel
    rintro l (hl | ⟨i, side, hstops⟩)
    · exact (Option.some.inj (hspan.symm.trans hl)).le
    · exact hrows i (l, side) (stops_iff.mp hstops)
  have hinert : ∀ i, ¬t.Eligible 6 i := by decide +kernel
  exact ⟨hties, hleaving, hrow 2 true 0 hleaving, hsmallest hties 2 true hleaving,
    hlength 0 (by rw [hleaving]; rfl), hflip 3 hspan hleast,
    hnever.mpr ⟨by decide +kernel, hinert⟩, hinert⟩

-- With the limits 0, 2⁻³⁰, 2⁻²⁹ and 0 in the order of the rows, ties lead from the row of column 2
-- over longer ones of smaller columns to a length that the last row is shorter than. So the row of
-- column 3 is left, though that of column 2 lets column 4 go nowhere either.
theorem leaving_row_not_smallest_of_chained_ties :
    let t : Tableau ℚ 4 5 := start
      #v[#v[0, 0, 1, 0, 1], #v[0, 1, 0, 0, 1], #v[1, 0, 0, 0, 1], #v[0, 0, 0, 1, 1]]
      #v[0, 1 / 2 ^ 30, 1 / 2 ^ 29, 0] #v[0, 0, 0, 0, 1] (Vector.replicate 5 0)
      (Vector.replicate 5 none) #v[2, 1, 0, 3]
    Function.Injective t.basis.get ∧ t.entering? true = some 4 ∧
      t.leaving 4 = .row 3 false 0 ∧ t.Stops 4 0 false 0 ∧ t.basis.get 0 < t.basis.get 3 ∧
      (t.iterate true).2.basis = #v[2, 1, 0, 4] := by
  intro t
  have hstops : t.Stops 4 0 false 0 := stops_iff.mpr (by decide +kernel)
  have hinjective : Function.Injective t.basis.get := by
    unfold Function.Injective
    decide +kernel
  exact ⟨hinjective, by decide +kernel, by decide +kernel, hstops, by decide +kernel,
    by decide +kernel⟩

end Tableau

end LinearProgram
