import LinearProgram.Proofs.Tableau.Progress
import LinearProgram.Proofs.Tableau.Ties

namespace LinearProgram

-- How far the entering column goes.
def Move.length? {m n : ℕ} : Move ℚ m n → Option ℚ
  | .optimal => none
  | .unbounded _ => none
  | .flip _ length => some length
  | .pivot _ _ _ length => some length

namespace Tableau

variable {m n : ℕ}

-- The next step of Bland's rule has no length, and the tolerance takes no price and no entry of the
-- entering column for zero that is not.
structure Stalls (t : Tableau ℚ m n) : Prop where
  length : (t.move true).length? = some 0
  prices : ∀ j, Clear (t.reduced.get j)
  entries : ∀ q ∈ t.entering? true, ∀ i, Clear (t.entry i q)

-- Nor does it take a limit of the ratio test for zero that is not.
def LimitsClear (t : Tableau ℚ m n) : Prop :=
  ∀ q ∈ t.entering? true, ∀ i, ∀ limit ∈ t.limit? q i, Clear limit.1

instance (t : Tableau ℚ m n) : Decidable t.Stalls :=
  decidable_of_iff
    ((t.move true).length? = some 0 ∧ (∀ j, Clear (t.reduced.get j)) ∧
      ∀ q ∈ t.entering? true, ∀ i, Clear (t.entry i q))
    ⟨fun ⟨hl, hp, he⟩ => ⟨hl, hp, he⟩, fun h => ⟨h.1, h.2, h.3⟩⟩

instance (t : Tableau ℚ m n) : Decidable t.LimitsClear :=
  inferInstanceAs (Decidable (∀ q ∈ t.entering? true, ∀ i, ∀ limit ∈ t.limit? q i, Clear limit.1))

section Entering

variable {t : Tableau ℚ m n} {q : Fin n}

-- Bland's rule takes the first column that can enter.
theorem canEnter_eq_false_of_lt (h : t.entering? true = some q) {j : Fin n} (hj : j < q) :
    t.canEnter j = false := by
  have hfind : (List.finRange n).find? t.canEnter = some q := by
    rw [← List.head?_filter]
    exact h
  obtain ⟨_, before, after, hlist, hbefore⟩ := List.find?_eq_some_iff_append.mp hfind
  have hmem : j ∈ before ++ q :: after := hlist ▸ List.mem_finRange j
  have hsorted := List.pairwise_lt_finRange n
  rw [hlist, List.pairwise_append] at hsorted
  rcases List.mem_append.mp hmem with hin | hin
  · simpa using hbefore j hin
  · rcases List.mem_cons.mp hin with rfl | hafter
    · exact absurd hj (lt_irrefl _)
    · exact absurd hj ((List.pairwise_cons.mp hsorted.2.1).1 j hafter).asymm

-- So a smaller column with room has no positive price, as far as the tolerance tells.
theorem reduced_nonpos_of_lt (h : t.entering? true = some q) {j : Fin n} (hj : j < q)
    (hclear : Clear (t.reduced.get j)) (hroom : t.isMovable j = true)
    (hout : t.isBasic j = false) : t.reduced.get j ≤ 0 := by
  refine hclear.nonpos (not_lt.mp fun hgain => ?_)
  have henter := (t.canEnter_iff j).mpr ⟨hgain, hroom, hout⟩
  rw [canEnter_eq_false_of_lt h hj] at henter
  exact Bool.false_ne_true henter

end Entering

section Ties

variable {t : Tableau ℚ m n} {q : Fin n} {i : Fin m}

-- The candidate is no longer than any row that was looked at and lets the column go nowhere, and
-- its basic column is no larger.
def Beats (t : Tableau ℚ m n) (q : Fin n) (rows : List (Fin m)) (best : Leaving ℚ m) : Prop :=
  ∀ i ∈ rows, ∀ atUpper, t.limit? q i = some (0, atUpper) →
    ∃ r side, best = .row r side 0 ∧ t.basis.get r ≤ t.basis.get i

-- Among limits that the tolerance tells from zero, a tie within the tolerance is a tie.
theorem tiesStayLow_of_clear (hclear : ∀ k, ∀ limit ∈ t.limit? q k, Clear limit.1) :
    t.TiesStayLow q := by
  intro i k _ a ha b _ hle hnear
  have hzero : a.1 ≤ 0 := (hclear i a ha).nonpos hle
  linarith

theorem leaving_beats (hmove : ∀ s, t.span.get q = some s → eps < s)
    (hclear : ∀ k, ∀ limit ∈ t.limit? q k, Clear limit.1) :
    t.Beats q (List.finRange m) (t.leaving q) := by
  intro i _ atUpper hlimit
  have hprecedes := leaving_precedes (tiesStayLow_of_clear hclear) hlimit
  have hfits := t.leaving_fits q
  cases hl : t.leaving q with
  | never =>
    rw [hl] at hprecedes
    exact hprecedes.elim
  | otherBound s =>
    rw [hl] at hprecedes hfits
    exact absurd hprecedes (not_le.mpr (hmove s hfits))
  | row r side length =>
    rw [hl] at hprecedes hfits
    obtain ⟨hle, hcol⟩ := hprecedes
    obtain rfl : length = 0 :=
      le_antisymm ((hclear r _ hfits).nonpos hle) (limit?_nonneg hfits)
    exact ⟨r, side, rfl, hcol⟩

end Ties

-- The pivot that Bland's rule asks for when the first column that can enter goes nowhere: of the
-- rows that stop it at once, the one with the smallest basic column is left.
structure Blocked (t : Tableau ℚ m n) (r : Fin m) (q : Fin n) : Prop where
  enters : t.entering? true = some q
  stops : ∃ atUpper, t.limit? q r = some (0, atUpper)
  smallest : ∀ i atUpper, t.limit? q i = some (0, atUpper) → t.basis.get r ≤ t.basis.get i
  basis : ∀ i, (t.iterate true).2.basis.get i = if i = r then q else t.basis.get i

-- What a tableau keeps while it stands at one feasible point.
structure Sound (t : Tableau ℚ m n) : Prop where
  canonical : t.Canonical
  priced : t.Priced
  within : ∀ i, 0 ≤ t.rhs.get i ∧ ∀ s, t.span.get (t.basis.get i) = some s → t.rhs.get i ≤ s

-- Two tableaux of one system that stand at one point.
structure Alike (t u : Tableau ℚ m n) : Prop where
  span : u.span = t.span
  costs : u.costs = t.costs
  lower : u.lower = t.lower
  solutions : ∀ z, (∀ i, u.residual z i = 0) ↔ ∀ i, t.residual z i = 0
  values : ∀ j, u.values.get j = t.values.get j
  turned : ∀ j, u.complemented.get j ≠ t.complemented.get j → ∃ s, t.span.get j = some s

namespace Alike

variable {t u v : Tableau ℚ m n}

theorem refl (t : Tableau ℚ m n) : t.Alike t :=
  ⟨rfl, rfl, rfl, fun _ => Iff.rfl, fun _ => rfl, fun _ h => absurd rfl h⟩

theorem symm (h : t.Alike u) : u.Alike t := by
  refine ⟨h.span.symm, h.costs.symm, h.lower.symm, fun z => (h.solutions z).symm,
    fun j => (h.values j).symm, fun j hj => ?_⟩
  rw [h.span]
  exact h.turned j hj.symm

theorem trans (h : t.Alike u) (h' : u.Alike v) : t.Alike v := by
  refine ⟨h'.span.trans h.span, h'.costs.trans h.costs, h'.lower.trans h.lower,
    fun z => (h'.solutions z).trans (h.solutions z), fun j => (h'.values j).trans (h.values j),
    fun j hj => ?_⟩
  by_cases hu : u.complemented.get j = t.complemented.get j
  · rw [← h.span]
    exact h'.turned j (hu ▸ hj)
  · exact h.turned j hu

end Alike

section Step

variable {t : Tableau ℚ m n}

-- A solution of the rows is the tableau's own point once its nonbasic coordinates are zero.
theorem eq_values_of_coordinate (hc : t.Canonical) {z : Fin n → ℚ}
    (hz : ∀ i, t.residual z i = 0)
    (hn : ∀ j, (∀ i, t.basis.get i ≠ j) → t.coordinate z j = 0) (j : Fin n) :
    z j = t.values.get j := by
  have hsame : t.coordinate z j = t.coordinate t.values.get j := by
    rw [coordinate_values]
    by_cases hj : ∃ i, t.basis.get i = j
    · obtain ⟨i, rfl⟩ := hj
      have hrow := hz i
      rw [residual, sum_entry_mul_of_basic hc hn, sub_eq_zero] at hrow
      rw [hrow, level_basic hc]
    · rw [hn j fun i hi => hj ⟨i, hi⟩, level_nonbasic fun i hi => hj ⟨i, hi⟩]
  unfold coordinate at hsame
  split_ifs at hsame <;> linarith

-- The row of the column that has entered says how far it has gone.
theorem Advances.rhs_entering {u : Tableau ℚ m n} {q : Fin n} {length : ℚ}
    (h : t.Advances q length u) (hc : t.Canonical) (hq : t.canEnter q = true) {i : Fin m}
    (hi : u.basis.get i = q) : u.rhs.get i = length := by
  have hbasis := nonbasic_of_canEnter hq
  cases h with
  | flip hs => exact absurd hi (hbasis i)
  | @atLower r hp hl =>
    have hlevel := level_basic (hc.pivot hp) i
    rw [hi, pivot_level_self hc hp] at hlevel
    rw [← hlevel, hl]
  | @atUpper r s hp hs hl =>
    have hp' := complementBasic_pivot_ne_zero hq hp
    have hlevel := level_basic ((hc.complementBasic r).pivot hp') i
    rw [hi, pivot_level_self (hc.complementBasic r) hp', complementBasic_quotient (hbasis r) hs]
      at hlevel
    rw [← hlevel, hl]

theorem entering_of_move {bland atUpper : Bool} {r : Fin m} {q : Fin n} {length : ℚ}
    (h : t.move bland = .pivot r q atUpper length) :
    t.entering? bland = some q ∧ t.leaving q = .row r atUpper length := by
  unfold move at h
  split at h
  · exact absurd h (by simp)
  · rename_i k hk
    split at h
    · exact absurd h (by simp)
    · exact absurd h (by simp)
    · rename_i hl
      obtain ⟨rfl, rfl, rfl, rfl⟩ := Move.pivot.inj h
      exact ⟨hk, hl⟩

theorem Stalls.exists_pivot (h : t.Stalls) :
    ∃ r q atUpper, t.move true = .pivot r q atUpper 0 := by
  have hlegal := t.move_legal true
  have hlength := h.length
  cases hm : t.move true with
  | optimal =>
    rw [hm] at hlength
    exact absurd hlength (by simp [Move.length?])
  | unbounded q =>
    rw [hm] at hlength
    exact absurd hlength (by simp [Move.length?])
  | flip q length =>
    -- A column that can enter has room, so the way to its other bound is not nothing.
    rw [hm] at hlength hlegal
    obtain rfl := Option.some.inj hlength
    have hroom := (t.isMovable_iff q).mp ((t.canEnter_iff q).mp hlegal.1).2.1 0 hlegal.2
    exact absurd hroom (not_lt.mpr eps_nonneg)
  | pivot r q atUpper length =>
    rw [hm] at hlength
    obtain rfl := Option.some.inj hlength
    exact ⟨r, q, atUpper, rfl⟩

theorem Stalls.blocked (h : t.Stalls) (hclear : t.LimitsClear) : ∃ r q, t.Blocked r q := by
  obtain ⟨r, q, atUpper, hm⟩ := h.exists_pivot
  have hlegal := t.move_legal true
  rw [hm] at hlegal
  obtain ⟨hq, hlimit⟩ := hlegal
  have hmove := (t.isMovable_iff q).mp ((t.canEnter_iff q).mp hq).2.1
  obtain ⟨henters, hleaving⟩ := entering_of_move hm
  refine ⟨r, q, henters, ⟨atUpper, hlimit⟩, fun i side hi => ?_, fun i => ?_⟩
  · obtain ⟨k, _, hk, hle⟩ := leaving_beats hmove (hclear q henters) i (List.mem_finRange i) side hi
    rw [hleaving] at hk
    obtain ⟨rfl, _, _⟩ := Leaving.row.inj hk
    exact hle
  · unfold iterate
    rw [hm]
    exact t.apply_pivot_basis r q atUpper 0 i

-- The step keeps the point, since the entering column does not move.
theorem Stalls.keeps (h : t.Stalls) (hs : t.Sound) :
    (t.iterate true).2.Sound ∧ t.Alike (t.iterate true).2 := by
  obtain ⟨r, q, atUpper, hm⟩ := h.exists_pivot
  have hlegal := t.move_legal true
  have hover : t.Overshoot 0 := by simpa [Overshoot] using hs.within
  have hc := hs.canonical.apply hlegal
  have hstep : t.iterate true = (.pivoted (decide ((0 : ℚ) < eps)), (t.iterate true).2) :=
    Prod.ext (by unfold iterate; rw [hm]; rfl) rfl
  obtain ⟨q', length, he, hlength, _, _, hadv⟩ := exists_advances hover hstep
  obtain ⟨henters, hleaving⟩ := entering_of_move hm
  obtain rfl : q = q' := Option.some.inj (henters.symm.trans he)
  obtain rfl : 0 = length := by
    rw [hleaving] at hlength
    exact Option.some.inj hlength
  have hcan := t.canEnter_of_entering? he
  have hself := hadv.coordinate_self hs.canonical hcan
  have hresidual := apply_residual_eq_zero hs.canonical hlegal
  refine ⟨⟨hc, hs.priced.apply hs.canonical hlegal, fun i => ?_⟩,
    apply_span t _, apply_costs t _, apply_lower t _, hresidual, fun j => ?_,
    fun j hj => apply_turned hlegal hj⟩
  · rw [show (t.iterate true).2.span = t.span from apply_span t _]
    rcases hadv.rows hcan i with hi | ⟨hi, hrhs⟩
    · rw [hadv.rhs_entering hs.canonical hcan hi, hi]
      have hroom := (t.isMovable_iff q).mp ((t.canEnter_iff q).mp hcan).2.1
      exact ⟨le_rfl, fun s hspan => eps_nonneg.trans (hroom s hspan).le⟩
    · rw [hrhs, hi, mul_zero, sub_zero]
      exact hs.within i
  · refine eq_values_of_coordinate hs.canonical ((hresidual _).mp (values_residual hc)) ?_ j
    intro k hk
    by_cases hkq : k = q
    · exact hkq ▸ hself
    · exact hadv.coordinate_nonbasic hk hkq

end Step

end Tableau

end LinearProgram
