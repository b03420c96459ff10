import LinearProgram.Proofs.Tableau.RatioTest

namespace LinearProgram

-- The largest of the amounts, and zero if none of them is above it.
def largest {k : ℕ} (f : Fin k → ℚ) : ℚ :=
  Finset.univ.fold max 0 f

section Largest

variable {k : ℕ} {f : Fin k → ℚ}

theorem le_largest (f : Fin k → ℚ) (i : Fin k) : f i ≤ largest f :=
  (Finset.le_fold_max _).mpr (Or.inr ⟨i, Finset.mem_univ i, le_rfl⟩)

theorem largest_nonneg (f : Fin k → ℚ) : 0 ≤ largest f :=
  (Finset.le_fold_max _).mpr (Or.inl le_rfl)

theorem largest_le {w : ℚ} (hw : 0 ≤ w) (h : ∀ i, f i ≤ w) : largest f ≤ w :=
  Finset.fold_max_le w |>.mpr ⟨hw, fun i _ => h i⟩

theorem largest_eq_zero (h : ∀ i, f i ≤ 0) : largest f = 0 :=
  (largest_le le_rfl h).antisymm (largest_nonneg f)

end Largest

namespace Tableau

variable {m n : ℕ}

-- No basic variable is past one of its bounds by more than `w`.
def Overshoot (t : Tableau ℚ m n) (w : ℚ) : Prop :=
  ∀ i, -w ≤ t.rhs.get i ∧ ∀ s, t.span.get (t.basis.get i) = some s → t.rhs.get i ≤ s + w

instance (t : Tableau ℚ m n) (w : ℚ) : Decidable (t.Overshoot w) :=
  inferInstanceAs (Decidable (∀ i, -w ≤ t.rhs.get i ∧
    ∀ s ∈ t.span.get (t.basis.get i), t.rhs.get i ≤ s + w))

-- How far the tolerances let a row pass its bounds while column `q` moves by `length`: by the ties
-- of the ratio test, or by an entry that counts as zero.
def slip (t : Tableau ℚ m n) (q : Fin n) (length : ℚ) (i : Fin m) : ℚ :=
  max (|t.entry i q| * m * eps) (eps * length)

-- How much further a row is past its bounds than before once column `q` has moved by `length`.
def passed (t : Tableau ℚ m n) (q : Fin n) (length : ℚ) (i : Fin m) : ℚ :=
  let taken := t.entry i q * length
  max (taken - max (t.rhs.get i) 0)
    (((t.span.get (t.basis.get i)).map fun s => -taken - max (s - t.rhs.get i) 0).getD 0)

-- What the tolerances have to do with that. It is nothing unless the ratio test has left the row
-- behind in a tie or has skipped it.
def overrun (t : Tableau ℚ m n) (q : Fin n) (length : ℚ) (i : Fin m) : ℚ :=
  min (t.slip q length i) (t.passed q length i)

-- The same for the entering column and its own other bound.
def excess (t : Tableau ℚ m n) (q : Fin n) (length : ℚ) : ℚ :=
  ((t.span.get q).map fun s => min ((m : ℚ) * eps) (length - s)).getD 0

-- The budget after a pivot that takes column `q` as far as `length` and then by `back` the other
-- way.
def carried (t : Tableau ℚ m n) (w : ℚ) (q : Fin n) (length back : ℚ) : ℚ :=
  max (w + largest (t.overrun q length) + largest (t.passed q (-back)))
    (max back (t.excess q length))

-- Where the basic variable of row `r` is at its bound.
def quotient (t : Tableau ℚ m n) (r : Fin m) (q : Fin n) (atUpper : Bool) : ℚ :=
  if atUpper then ((t.span.get (t.basis.get r)).getD 0 - t.rhs.get r) / -t.entry r q
  else t.rhs.get r / t.entry r q

-- The budget after a move, when it is `w` before. A leaving variable that is past its bound already
-- is brought back to it.
def drift (t : Tableau ℚ m n) (w : ℚ) : Move ℚ m n → ℚ
  | .optimal => w
  | .unbounded _ => w
  | .flip q length => w + largest (t.overrun q length)
  | .pivot r q atUpper length => t.carried w q length (length - t.quotient r q atUpper)

-- The budget at the end of a run.
def driftFrom (iterations stalled : ℕ) (t : Tableau ℚ m n) (w : ℚ) : ℚ :=
  match iterations with
  | 0 => w
  | iterations + 1 =>
    match t.iterate (stallLimit ≤ stalled) with
    | (.pivoted degenerate, u) =>
      driftFrom iterations (if degenerate then stalled + 1 else 0) u
        (t.drift w (t.move (stallLimit ≤ stalled)))
    | _ => w

section Passed

variable {t : Tableau ℚ m n} {q : Fin n} {i : Fin m} {length s c : ℚ}

theorem taken_sub_le_passed : t.entry i q * length - max (t.rhs.get i) 0 ≤ t.passed q length i :=
  le_max_left _ _

theorem neg_taken_sub_le_passed (hs : t.span.get (t.basis.get i) = some s) :
    -(t.entry i q * length) - max (s - t.rhs.get i) 0 ≤ t.passed q length i := by
  refine le_trans (le_of_eq ?_) (le_max_right _ _)
  rw [hs]
  rfl

theorem passed_le (hc : 0 ≤ c) (hlow : t.entry i q * length - max (t.rhs.get i) 0 ≤ c)
    (hhigh : ∀ s, t.span.get (t.basis.get i) = some s →
      -(t.entry i q * length) - max (s - t.rhs.get i) 0 ≤ c) : t.passed q length i ≤ c := by
  refine max_le hlow ?_
  cases hs : t.span.get (t.basis.get i) with
  | none => exact hc
  | some s => exact hhigh s hs

-- A column that stays where it is takes no row anywhere.
theorem passed_zero_le (i : Fin m) : t.passed q 0 i ≤ 0 := by
  refine passed_le le_rfl ?_ fun s _ => ?_
  · rw [mul_zero, zero_sub, neg_nonpos]
    exact le_max_right _ _
  · rw [mul_zero, neg_zero, zero_sub, neg_nonpos]
    exact le_max_right _ _

theorem le_excess (hs : t.span.get q = some s) :
    min ((m : ℚ) * eps) (length - s) ≤ t.excess q length := by
  unfold excess
  rw [hs]
  rfl

theorem excess_le (hc : 0 ≤ c) (h : ∀ s, t.span.get q = some s → length ≤ s + c) :
    t.excess q length ≤ c := by
  unfold excess
  cases hs : t.span.get q with
  | none => exact hc
  | some s =>
    have hle := h s hs
    exact (min_le_right _ _).trans (by linarith)

end Passed

section Move

variable {t : Tableau ℚ m n} {w length : ℚ} {q : Fin n}

theorem tie_le_slip (i : Fin m) : |t.entry i q| * (m * eps) ≤ t.slip q length i := by
  rw [← mul_assoc]
  exact le_max_left _ _

theorem slip_nonneg (i : Fin m) : 0 ≤ t.slip q length i :=
  (mul_nonneg (abs_nonneg _) (mul_nonneg m.cast_nonneg eps_nonneg)).trans (t.tie_le_slip i)

-- A row that sets a limit is passed by the tolerance of the test alone, and a row that is skipped by
-- its entry.
theorem passed_le_of_accurate {tol c : ℚ} {i : Fin m} (hacc : t.Accurate q tol length)
    (hlen : 0 ≤ length) (hc : 0 ≤ c) (htie : |t.entry i q| * (m * tol) ≤ c)
    (hskip : |t.entry i q| ≤ eps → |t.entry i q| * length ≤ c) : t.passed q length i ≤ c := by
  have heps := eps_pos
  rcases le_or_gt |t.entry i q| eps with hsmall | hlarge
  · have htaken : |t.entry i q * length| ≤ c := by
      rw [abs_mul, abs_of_nonneg hlen]
      exact hskip hsmall
    obtain ⟨hdown, hup⟩ := abs_le.mp htaken
    exact passed_le hc (by linarith [le_max_right (t.rhs.get i) 0]) fun s _ => by
      linarith [le_max_right (s - t.rhs.get i) 0]
  · rcases lt_abs.mp hlarge with hpos | hneg
    · have ha : 0 < t.entry i q := heps.trans hpos
      have hmove := mul_nonneg ha.le hlen
      have hlimit := hacc.limit i _ _ (t.limit?_eq_some.mpr (Or.inl ⟨hpos, rfl, rfl⟩))
      have hmul := mul_le_mul_of_nonneg_left hlimit ha.le
      rw [mul_add, mul_max_of_nonneg _ _ ha.le, mul_div_cancel₀ _ ha.ne', mul_zero] at hmul
      rw [abs_of_pos ha] at htie
      exact passed_le hc (by linarith) fun s _ => by linarith [le_max_right (s - t.rhs.get i) 0]
    · have ha : 0 < -t.entry i q := heps.trans hneg
      have hmove := mul_nonneg ha.le hlen
      rw [abs_of_neg (neg_pos.mp ha)] at htie
      refine passed_le hc (by linarith [le_max_right (t.rhs.get i) 0]) fun s hs => ?_
      have hlimit := hacc.limit i _ _
        (t.limit?_eq_some.mpr (Or.inr ⟨by linarith, rfl, s, hs, rfl⟩))
      have hmul := mul_le_mul_of_nonneg_left hlimit ha.le
      rw [mul_add, mul_max_of_nonneg _ _ ha.le, mul_div_cancel₀ _ ha.ne', mul_zero] at hmul
      linarith

theorem passed_le_slip (hacc : t.Accurate q eps length) (hlen : 0 ≤ length) (i : Fin m) :
    t.passed q length i ≤ t.slip q length i :=
  passed_le_of_accurate hacc hlen (t.slip_nonneg i) (t.tie_le_slip i) fun hsmall =>
    (mul_le_mul_of_nonneg_right hsmall hlen).trans (le_max_right _ _)

theorem Overshoot.shift_passed (h : t.Overshoot w) (hw : 0 ≤ w) (length : ℚ) (i : Fin m) :
    -(w + t.passed q length i) ≤ t.rhs.get i - t.entry i q * length ∧
      ∀ s, t.span.get (t.basis.get i) = some s →
        t.rhs.get i - t.entry i q * length ≤ s + (w + t.passed q length i) := by
  obtain ⟨hlow, hhigh⟩ := h i
  have htaken : t.entry i q * length - max (t.rhs.get i) 0 ≤ t.passed q length i :=
    taken_sub_le_passed
  have hmax : max (t.rhs.get i) 0 ≤ t.rhs.get i + w := max_le (by linarith) (by linarith)
  refine ⟨by linarith, fun s hs => ?_⟩
  have hgiven : -(t.entry i q * length) - max (s - t.rhs.get i) 0 ≤ t.passed q length i :=
    neg_taken_sub_le_passed hs
  have hmax : max (s - t.rhs.get i) 0 ≤ s - t.rhs.get i + w :=
    max_le (by linarith) (by linarith [hhigh s hs])
  linarith

-- What moving column `q` by `length` makes of the basic variable of a row.
theorem Overshoot.shift_row (h : t.Overshoot w) (hw : 0 ≤ w) (hacc : t.Accurate q eps length)
    (hlen : 0 ≤ length) (i : Fin m) :
    -(w + t.slip q length i) ≤ t.rhs.get i - t.entry i q * length ∧
      ∀ s, t.span.get (t.basis.get i) = some s →
        t.rhs.get i - t.entry i q * length ≤ s + (w + t.slip q length i) := by
  obtain ⟨hlow, hhigh⟩ := h.shift_passed (q := q) hw length i
  have hslip := t.passed_le_slip hacc hlen i
  exact ⟨by linarith, fun s hs => by linarith [hhigh s hs]⟩

-- The tolerances account for all that a row passes its bounds by.
theorem Overshoot.shift (h : t.Overshoot w) (hw : 0 ≤ w) (hacc : t.Accurate q eps length)
    (hlen : 0 ≤ length) (i : Fin m) :
    -(w + largest (t.overrun q length)) ≤ t.rhs.get i - t.entry i q * length ∧
      ∀ s, t.span.get (t.basis.get i) = some s →
        t.rhs.get i - t.entry i q * length ≤ s + (w + largest (t.overrun q length)) := by
  obtain ⟨hlow, hhigh⟩ := h.shift_passed (q := q) hw length i
  have hlargest : t.passed q length i ≤ largest (t.overrun q length) := by
    have hle : min (t.slip q length i) (t.passed q length i) ≤ largest (t.overrun q length) :=
      le_largest _ i
    rwa [min_eq_right (t.passed_le_slip hacc hlen i)] at hle
  exact ⟨by linarith, fun s hs => by linarith [hhigh s hs]⟩

theorem Overshoot.flip (h : t.Overshoot w) (hw : 0 ≤ w) (hs : t.span.get q = some length)
    (hacc : t.Accurate q eps length) (hlen : 0 ≤ length) :
    (t.complementNonbasic q).Overshoot (w + largest (t.overrun q length)) := by
  intro i
  rw [complementNonbasic_rhs, hs, Option.getD_some]
  exact h.shift hw hacc hlen i

-- Where nothing is past its bounds, no leaving variable has to be brought back.
theorem Overshoot.length_eq_quotient (h : t.Overshoot 0) {r : Fin m} {atUpper : Bool}
    (hl : t.limit? q r = some (length, atUpper)) :
    0 ≤ length ∧ length = t.quotient r q atUpper := by
  have heps := eps_pos
  obtain ⟨hlow, hhigh⟩ := h r
  unfold quotient
  rcases t.limit?_eq_some.mp hl with ⟨hp, rfl, rfl⟩ | ⟨hp, rfl, s, hs, rfl⟩
  · have hnonneg : 0 ≤ t.rhs.get r / t.entry r q := div_nonneg (by linarith) (by linarith)
    rw [max_eq_left hnonneg]
    exact ⟨hnonneg, rfl⟩
  · have hnonneg : 0 ≤ (s - t.rhs.get r) / -t.entry r q :=
      div_nonneg (by linarith [hhigh s hs]) (by linarith)
    rw [max_eq_left hnonneg, hs]
    exact ⟨hnonneg, rfl⟩

theorem pivot_rhs_self {r : Fin m} (hp : t.entry r q ≠ 0) :
    (t.pivot r q).rhs.get r = t.rhs.get r / t.entry r q := by
  rw [pivot_rhs t r q hp, multiple, if_pos rfl]
  field_simp
  ring

theorem pivot_rhs_of_ne {r i : Fin m} (hp : t.entry r q ≠ 0) (hi : i ≠ r) :
    (t.pivot r q).rhs.get i = t.rhs.get i - t.entry i q * (t.rhs.get r / t.entry r q) := by
  rw [pivot_rhs t r q hp, multiple, if_neg hi]

-- A leaving variable that is below its bound already moves the others the other way.
theorem Overshoot.pivot (h : t.Overshoot w) (hw : 0 ≤ w) {r : Fin m}
    (hl : t.limit? q r = some (length, false)) (hacc : t.Accurate q eps length) :
    (t.pivot r q).Overshoot
      (t.carried w q length (length - t.rhs.get r / t.entry r q)) := by
  have heps := eps_pos
  obtain ⟨hp, hlength⟩ : eps < t.entry r q ∧ length = max (t.rhs.get r / t.entry r q) 0 := by
    rcases t.limit?_eq_some.mp hl with ⟨hp, _, hlength⟩ | ⟨_, hfalse, _⟩
    · exact ⟨hp, hlength⟩
    · exact absurd hfalse (by decide)
  have hpos : 0 < t.entry r q := heps.trans hp
  have hlen : 0 ≤ length := hlength ▸ le_max_right _ _
  generalize hback : length - t.rhs.get r / t.entry r q = back
  have hquotient : t.rhs.get r / t.entry r q = length - back := by linarith
  have hnonneg : 0 ≤ back := by linarith [hlength ▸ le_max_left (t.rhs.get r / t.entry r q) 0]
  have hrows : w + largest (t.overrun q length) + largest (t.passed q (-back)) ≤
      t.carried w q length back := le_max_left _ _
  have hself : max back (t.excess q length) ≤ t.carried w q length back := le_max_right _ _
  intro i
  rw [pivot_basis, pivot_span]
  by_cases hi : i = r
  · subst hi
    rw [pivot_rhs_self hpos.ne', if_pos rfl, hquotient]
    have hlow := (le_max_left back (t.excess q length)).trans hself
    refine ⟨by linarith, fun s hs => ?_⟩
    have hover := ((le_excess hs).trans (le_max_right back _)).trans hself
    rw [min_eq_right (by linarith [hacc.span s hs])] at hover
    linarith
  · rw [pivot_rhs_of_ne hpos.ne' hi, if_neg hi, hquotient]
    by_cases hzero : back = 0
    · obtain ⟨hlow, hhigh⟩ := h.shift hw hacc hlen i
      have hrest := largest_nonneg (t.passed q (-back))
      rw [hzero, sub_zero]
      rw [hzero] at hrows hrest
      exact ⟨by linarith, fun s hs => by linarith [hhigh s hs]⟩
    · -- the column stays where it is before it goes back
      have hstays : length = 0 := by
        by_contra hne
        have hgo : length = t.rhs.get r / t.entry r q := by
          rcases max_choice (t.rhs.get r / t.entry r q) 0 with hmax | hmax
          · exact hlength.trans hmax
          · exact absurd (hlength.trans hmax) hne
        exact hzero (by linarith)
      obtain ⟨hlow, hhigh⟩ := h.shift_passed (q := q) hw (-back) i
      have hrest := largest_nonneg (t.overrun q length)
      have hthis := le_largest (t.passed q (-back)) i
      rw [hstays, zero_sub]
      rw [hstays] at hrows hrest
      exact ⟨by linarith, fun s hs => by linarith [hhigh s hs]⟩

end Move

-- A basic column with an upper bound may be turned around before the pivot.
section Departure

variable {t : Tableau ℚ m n} {w length s : ℚ} {r : Fin m} {q : Fin n}

theorem Overshoot.complementBasic (h : t.Overshoot w) (hs : t.span.get (t.basis.get r) = some s) :
    (t.complementBasic r).Overshoot w := by
  intro i
  obtain ⟨hlow, hhigh⟩ := h i
  rw [complementBasic_rhs, complementBasic_span, complementBasic_basis]
  by_cases hi : i = r
  · subst hi
    rw [if_pos rfl, hs, Option.getD_some]
    have hu := hhigh s hs
    refine ⟨by linarith, fun u hsu => ?_⟩
    obtain rfl := Option.some.inj hsu
    linarith
  · rw [if_neg hi]
    exact ⟨hlow, hhigh⟩

theorem complementBasic_entry_of_ne (hq : t.basis.get r ≠ q) (i : Fin m) :
    (t.complementBasic r).entry i q = if i = r then -t.entry i q else t.entry i q := by
  rw [complementBasic_entry]
  by_cases hi : i = r
  · rw [if_pos ⟨hi, hq.symm⟩, if_pos hi]
  · rw [if_neg fun h => hi h.1, if_neg hi]

-- Turning the row around swaps its two bounds.
theorem complementBasic_passed (hq : t.basis.get r ≠ q)
    (hs : t.span.get (t.basis.get r) = some s) :
    (t.complementBasic r).passed q length = t.passed q length := by
  funext i
  unfold passed
  rw [complementBasic_entry_of_ne hq, complementBasic_rhs, complementBasic_span,
    complementBasic_basis]
  by_cases hi : i = r
  · subst hi
    rw [if_pos rfl, if_pos rfl, hs]
    simp only [Option.getD_some, Option.map_some, neg_mul, neg_neg, sub_sub_cancel]
    exact max_comm _ _
  · rw [if_neg hi, if_neg hi]

theorem complementBasic_overrun (hq : t.basis.get r ≠ q)
    (hs : t.span.get (t.basis.get r) = some s) :
    (t.complementBasic r).overrun q length = t.overrun q length := by
  funext i
  have hentry : |(t.complementBasic r).entry i q| = |t.entry i q| := by
    rw [complementBasic_entry_of_ne hq]
    split_ifs
    · exact abs_neg _
    · rfl
  unfold overrun slip
  rw [complementBasic_passed hq hs, hentry]

theorem complementBasic_carried (hq : t.basis.get r ≠ q)
    (hs : t.span.get (t.basis.get r) = some s) (back : ℚ) :
    (t.complementBasic r).carried w q length back = t.carried w q length back := by
  unfold carried
  rw [complementBasic_passed hq hs, complementBasic_overrun hq hs]
  rfl

-- Where a basic column that is turned around first lets the entering column go.
theorem complementBasic_quotient (hq : t.basis.get r ≠ q)
    (hs : t.span.get (t.basis.get r) = some s) :
    (t.complementBasic r).rhs.get r / (t.complementBasic r).entry r q =
      (s - t.rhs.get r) / -t.entry r q := by
  rw [complementBasic_rhs, if_pos rfl, complementBasic_entry_of_ne hq, if_pos rfl, hs,
    Option.getD_some]

-- The limit that was the upper bound's is now the lower bound's.
theorem complementBasic_limit? (hq : t.basis.get r ≠ q)
    (hs : t.span.get (t.basis.get r) = some s) (hneg : t.entry r q < -eps) :
    (t.complementBasic r).limit? q r =
      some (max ((s - t.rhs.get r) / -t.entry r q) 0, false) := by
  refine (limit?_eq_some _).mpr (Or.inl ⟨?_, rfl, ?_⟩)
  · rw [complementBasic_entry_of_ne hq, if_pos rfl]
    linarith
  · rw [complementBasic_entry_of_ne hq, if_pos rfl, complementBasic_rhs, if_pos rfl, hs,
      Option.getD_some]

theorem Accurate.complementBasic (h : t.Accurate q eps length) (hq : t.basis.get r ≠ q)
    (hs : t.span.get (t.basis.get r) = some s) (hneg : t.entry r q < -eps) :
    (t.complementBasic r).Accurate q eps length := by
  refine ⟨h.span, fun i l atUpper hl => ?_⟩
  by_cases hi : i = r
  · subst hi
    rw [complementBasic_limit? hq hs hneg] at hl
    obtain ⟨rfl, _⟩ := Prod.mk.inj (Option.some.inj hl)
    exact h.limit i _ _ (t.limit?_eq_some.mpr (Or.inr ⟨hneg, rfl, s, hs, rfl⟩))
  · refine h.limit i l atUpper ?_
    unfold limit? at hl ⊢
    rwa [complementBasic_entry_of_ne hq, if_neg hi, complementBasic_rhs, if_neg hi] at hl

end Departure

section Run

variable {t : Tableau ℚ m n} {w : ℚ}

theorem Overshoot.apply (h : t.Overshoot w) (hw : 0 ≤ w) {move : Move ℚ m n} (hm : t.Legal move)
    (hacc : t.Measured eps move) : (t.apply move).Overshoot (t.drift w move) := by
  cases move with
  | optimal => exact h
  | unbounded q => exact h
  | flip q length =>
    have hlarge := (t.isMovable_iff q).mp ((t.canEnter_iff q).mp hm.1).2.1 length hm.2
    exact h.flip hw hm.2 hacc (eps_nonneg.trans hlarge.le)
  | pivot r q atUpper length =>
    rcases t.limit?_eq_some.mp hm.2 with ⟨_, rfl, _⟩ | ⟨hneg, rfl, s, hs, rfl⟩
    · exact h.pivot hw hm.2 hacc
    · have hq := (t.isBasic_eq_false q).mp ((t.canEnter_iff q).mp hm.1).2.2 r
      have hturned := (h.complementBasic hs).pivot hw (complementBasic_limit? hq hs hneg)
        (Accurate.complementBasic hacc hq hs hneg)
      have hquotient : t.quotient r q true = (s - t.rhs.get r) / -t.entry r q := by
        unfold quotient
        rw [hs]
        rfl
      rw [complementBasic_carried hq hs, complementBasic_quotient hq hs] at hturned
      change Overshoot _ (t.carried w q _ (_ - t.quotient r q true))
      rw [hquotient]
      exact hturned

theorem le_drift (t : Tableau ℚ m n) (w : ℚ) (move : Move ℚ m n) : w ≤ t.drift w move := by
  cases move with
  | optimal => exact le_rfl
  | unbounded q => exact le_rfl
  | flip q length =>
    have hrows := largest_nonneg (t.overrun q length)
    change w ≤ w + largest (t.overrun q length)
    linarith
  | pivot r q atUpper length =>
    have hrows := largest_nonneg (t.overrun q length)
    have hback := largest_nonneg (t.passed q (-(length - t.quotient r q atUpper)))
    refine le_trans ?_ (le_max_left _ _)
    linarith

-- The budget of a run covers what its end is past the bounds.
theorem Overshoot.runFrom (iterations stalled : ℕ) (h : t.Overshoot w) (hw : 0 ≤ w) :
    0 ≤ driftFrom iterations stalled t w ∧
      (t.runFrom iterations stalled).2.Overshoot (driftFrom iterations stalled t w) := by
  induction iterations generalizing stalled t w with
  | zero => exact ⟨hw, h⟩
  | succ iterations ih =>
    have hnext := h.apply hw (t.move_legal (stallLimit ≤ stalled))
      (t.move_measured eps_nonneg fun q _ => t.sharp_eps q)
    have hbudget := hw.trans (t.le_drift w (t.move (stallLimit ≤ stalled)))
    unfold Tableau.runFrom driftFrom iterate
    cases hm : t.move (decide (stallLimit ≤ stalled)) with
    | optimal => exact ⟨hw, h⟩
    | unbounded q => exact ⟨hw, h⟩
    | flip q length =>
      rw [hm] at hnext hbudget
      exact ih _ hnext hbudget
    | pivot r q atUpper length =>
      rw [hm] at hnext hbudget
      exact ih _ hnext hbudget

end Run

end Tableau

end LinearProgram
