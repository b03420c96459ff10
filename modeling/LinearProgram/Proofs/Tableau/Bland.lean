import LinearProgram.Proofs.Tableau.Course
import LinearProgram.Proofs.Tableau.Stalling

namespace LinearProgram

namespace Tableau

variable {m n : ℕ}

section Comparison

variable {t u : Tableau ℚ m n} {q : Fin n} {r : Fin m}

-- Whether the two tableaux measure the column from the same bound.
def turn (t u : Tableau ℚ m n) (j : Fin n) : ℚ :=
  if u.complemented.get j = t.complemented.get j then 1 else -1

theorem Alike.coordinate_sub (h : t.Alike u) (z w : Fin n → ℚ) (j : Fin n) :
    u.coordinate z j - u.coordinate w j =
      t.turn u j * (t.coordinate z j - t.coordinate w j) := by
  unfold coordinate turn
  rw [h.span, h.lower]
  cases u.complemented.get j <;> cases t.complemented.get j <;> simp

-- What a unit of an entering column earns, told by the prices of another tableau at the same point.
theorem Alike.sum_reduced_mul_course (h : t.Alike u) (ht : t.Sound) (hu : u.Sound)
    (hq : t.isBasic q = false) :
    ∑ j, u.reduced.get j * (t.turn u j * t.course q j) = t.reduced.get q := by
  have hmoved : ∀ i, t.residual (fun k => t.values.get k + t.ray q k) i = 0 := fun i =>
    (residual_add_ray ht.canonical _ i).trans (values_residual ht.canonical i)
  have hcost := cost_sub_cost hu.priced ((h.solutions _).mpr hmoved)
    ((h.solutions _).mpr (values_residual ht.canonical))
  calc ∑ j, u.reduced.get j * (t.turn u j * t.course q j)
      = ∑ j, u.reduced.get j *
          (u.coordinate (fun k => t.values.get k + t.ray q k) j -
            u.coordinate t.values.get j) := by
        refine Finset.sum_congr rfl fun j _ => ?_
        rw [h.coordinate_sub, coordinate_add_ray, add_sub_cancel_left]
    _ = ∑ j, t.costs.get j * t.ray q j := by
        rw [← hcost, h.costs]
        exact Finset.sum_congr rfl fun j _ => by rw [add_sub_cancel_left]
    _ = t.reduced.get q := sum_costs_mul_ray ht.canonical ht.priced hq

theorem Alike.level_cases (h : t.Alike u) (j : Fin n) :
    t.turn u j = 1 ∧ u.level j = t.level j ∨
      t.turn u j = -1 ∧ ∃ s, t.span.get j = some s ∧ u.level j = s - t.level j := by
  have ht := coordinate_values t j
  have hu := coordinate_values u j
  by_cases hj : u.complemented.get j = t.complemented.get j
  · left
    refine ⟨if_pos hj, ?_⟩
    rw [← ht, ← hu, coordinate, coordinate, hj, h.span, h.lower, h.values]
  · right
    obtain ⟨s, hs⟩ := h.turned j hj
    refine ⟨if_neg hj, s, hs, ?_⟩
    rw [← ht, ← hu, coordinate, coordinate, h.span, h.lower, h.values, hs, Option.getD_some]
    cases hc : t.complemented.get j <;> cases hc' : u.complemented.get j
    · exact absurd (hc'.trans hc.symm) hj
    · simp
    · simp
    · exact absurd (hc'.trans hc.symm) hj

-- A column with room cannot be at both of its bounds.
theorem Alike.turn_of_nonbasic (h : t.Alike u) {j : Fin n} (hroom : t.isMovable j = true)
    (ht : t.isBasic j = false) (hu : u.isBasic j = false) : t.turn u j = 1 := by
  rcases h.level_cases j with ⟨hone, _⟩ | ⟨_, s, hs, hlevel⟩
  · exact hone
  · rw [level_nonbasic ((t.isBasic_eq_false j).mp ht),
      level_nonbasic ((u.isBasic_eq_false j).mp hu), sub_zero] at hlevel
    have hlarge := (t.isMovable_iff j).mp hroom s hs
    exact absurd (hlevel ▸ hlarge) (not_lt.mpr eps_nonneg)

-- A row whose basic column is at a bound stops the entering column at once if and only if the
-- column would take it past that bound.
theorem Alike.limit?_eq_zero_iff (h : t.Alike u) (ht : t.Sound) {i : Fin m}
    (hroom : t.isMovable (t.basis.get i) = true) (hu : u.isBasic (t.basis.get i) = false) :
    (∃ atUpper, t.limit? q i = some (0, atUpper)) ↔
      eps < t.turn u (t.basis.get i) * t.entry i q := by
  have heps := eps_pos
  have hlarge := (t.isMovable_iff _).mp hroom
  rcases h.level_cases (t.basis.get i) with ⟨hone, hlevel⟩ | ⟨hone, s, hs, hlevel⟩ <;>
    rw [level_basic ht.canonical, level_nonbasic ((u.isBasic_eq_false _).mp hu)] at hlevel
  · rw [hone, one_mul]
    constructor
    · rintro ⟨atUpper, hlimit⟩
      rcases t.limit?_eq_some.mp hlimit with ⟨ha, _⟩ | ⟨ha, _, s, hs, hl⟩
      · exact ha
      · rw [← hlevel, sub_zero] at hl
        have hgo : 0 < s / -t.entry i q := div_pos (by linarith [hlarge s hs]) (by linarith)
        exact absurd (hl ▸ le_max_left _ _) (not_le.mpr hgo)
    · intro ha
      exact ⟨false, t.limit?_eq_some.mpr (.inl ⟨ha, rfl, by rw [← hlevel, zero_div, max_self]⟩)⟩
  · have hrhs : t.rhs.get i = s := by linarith
    rw [hone, neg_one_mul]
    constructor
    · rintro ⟨atUpper, hlimit⟩
      rcases t.limit?_eq_some.mp hlimit with ⟨ha, _, hl⟩ | ⟨ha, _⟩
      · rw [hrhs] at hl
        have hgo : 0 < s / t.entry i q := div_pos (by linarith [hlarge s hs]) (by linarith)
        exact absurd (hl ▸ le_max_left _ _) (not_le.mpr hgo)
      · linarith
    · intro ha
      refine ⟨true, t.limit?_eq_some.mpr (.inr ⟨by linarith, rfl, s, hs, ?_⟩)⟩
      rw [hrhs, sub_self, zero_div, max_self]

theorem Alike.isMovable (h : t.Alike u) {j : Fin n} (hroom : t.isMovable j = true) :
    u.isMovable j = true := by
  rw [isMovable_iff, h.span]
  exact (t.isMovable_iff j).mp hroom

theorem clear_turn_mul {x : ℚ} (hx : Clear x) (j : Fin n) : Clear (t.turn u j * x) := by
  unfold turn
  split_ifs
  · rwa [one_mul]
  · rw [neg_one_mul]
    exact hx.neg

-- Some column that the movement changes earns by it at the prices of the other tableau.
theorem Alike.exists_gain (h : t.Alike u) (ht : t.Sound) (hu : u.Sound)
    (hq : t.canEnter q = true) :
    ∃ j, u.isBasic j = false ∧ (j = q ∨ ∃ i, t.basis.get i = j) ∧
      0 < u.reduced.get j * (t.turn u j * t.course q j) := by
  obtain ⟨hprice, _, hout⟩ := (t.canEnter_iff q).mp hq
  have hpos : 0 < ∑ j, u.reduced.get j * (t.turn u j * t.course q j) := by
    rw [h.sum_reduced_mul_course ht hu hout]
    exact eps_pos.trans hprice
  obtain ⟨j, hj⟩ : ∃ j, 0 < u.reduced.get j * (t.turn u j * t.course q j) := by
    by_contra hnone
    push Not at hnone
    exact absurd hpos (not_lt.mpr (Finset.sum_nonpos fun j _ => hnone j))
  refine ⟨j, ?_, ?_, hj⟩
  · by_contra hbasic
    obtain ⟨k, rfl⟩ := (u.isBasic_iff j).mp (by simpa using hbasic)
    rw [hu.priced.reduced_basic hu.canonical, zero_mul] at hj
    exact lt_irrefl _ hj
  · by_contra hno
    push Not at hno
    rw [course_nonbasic hno.2 hno.1, mul_zero, mul_zero] at hj
    exact lt_irrefl _ hj

-- At one point a column cannot both leave for a smaller one and be the first that can enter, if it
-- is the largest of the columns that have left in between.
theorem Alike.not_enters_again (h : t.Alike u) (ht : t.Sound) (hu : u.Sound)
    (hb : t.Blocked r q) (hentries : ∀ i, Clear (t.entry i q))
    (hprices : ∀ j, Clear (u.reduced.get j)) (hlt : q < t.basis.get r)
    (hout : ∀ i, u.isBasic (t.basis.get i) = false →
      t.basis.get i ≤ t.basis.get r ∧ t.isMovable (t.basis.get i) = true) :
    u.entering? true ≠ some (t.basis.get r) := by
  intro he
  have hcan := t.canEnter_of_entering? hb.enters
  obtain ⟨_, hroom, hq⟩ := (t.canEnter_iff q).mp hcan
  have hprice := ((u.canEnter_iff _).mp (u.canEnter_of_entering? he)).1
  obtain ⟨j, hnonbasic, rfl | ⟨i, rfl⟩, hgain⟩ := h.exists_gain ht hu hcan
  · -- The entering column would have been taken at the other tableau too.
    rw [h.turn_of_nonbasic hroom hq hnonbasic, course_self hq, mul_one, mul_one] at hgain
    have hnonpos := reduced_nonpos_of_lt he hlt (hprices j) (h.isMovable hroom) hnonbasic
    exact absurd hgain (not_lt.mpr hnonpos)
  · obtain ⟨hle, hmove⟩ := hout i hnonbasic
    have hstops := h.limit?_eq_zero_iff (q := q) ht hmove hnonbasic
    rw [course_basic ht.canonical hq, mul_neg, mul_neg, Left.neg_pos_iff] at hgain
    rcases hle.lt_or_eq with hless | heq
    · -- The row of a smaller column would have been left in its place.
      have hnonpos := reduced_nonpos_of_lt he hless (hprices _) (h.isMovable hmove) hnonbasic
      have hturned : 0 < t.turn u (t.basis.get i) * t.entry i q :=
        pos_of_mul_neg_right hgain hnonpos
      obtain ⟨atUpper, hlimit⟩ := hstops.mpr ((clear_turn_mul (hentries i) _).lt hturned)
      exact absurd (hb.smallest i atUpper hlimit) (not_le.mpr hless)
    · -- The column itself is stopped at once, so its movement would cost at the other tableau.
      obtain rfl := ht.canonical.injective heq
      have hgo := hstops.mp hb.stops
      exact absurd hgain (mul_pos (eps_pos.trans hprice) (eps_pos.trans hgo)).not_gt

end Comparison

section Run

variable (t : Tableau ℚ m n)

-- The tableau after `k` steps of Bland's rule.
def afterBland (k : ℕ) : Tableau ℚ m n :=
  (fun u => (u.iterate true).2)^[k] t

theorem afterBland_succ (k : ℕ) :
    t.afterBland (k + 1) = ((t.afterBland k).iterate true).2 :=
  Function.iterate_succ_apply' _ k t

-- The basis, whatever its order.
def columns : Finset (Fin n) :=
  Finset.univ.filter fun j => t.isBasic j = true

variable {t}

theorem card_columns (hc : t.Canonical) : t.columns.card = m := by
  have himage : t.columns = Finset.univ.image t.basis.get := by
    ext j
    simp [columns, isBasic_iff]
  rw [himage, Finset.card_image_of_injective _ hc.injective, Finset.card_univ, Fintype.card_fin]

theorem mem_columns {j : Fin n} : j ∈ t.columns ↔ t.isBasic j = true := by
  simp [columns]

namespace Blocked

variable {q c : Fin n} {r : Fin m}

theorem isBasic_entering (h : t.Blocked r q) : (t.iterate true).2.isBasic q = true :=
  (isBasic_iff _ q).mpr ⟨r, by rw [h.basis, if_pos rfl]⟩

theorem eq_of_leaves (h : t.Blocked r q) (hin : t.isBasic c = true)
    (hout : (t.iterate true).2.isBasic c = false) : c = t.basis.get r := by
  obtain ⟨i, rfl⟩ := (t.isBasic_iff c).mp hin
  by_contra hne
  have hi : i ≠ r := fun heq => hne (heq ▸ rfl)
  exact (isBasic_eq_false _ _).mp hout i (by rw [h.basis, if_neg hi])

theorem eq_of_enters (h : t.Blocked r q) (hout : t.isBasic c = false)
    (hin : (t.iterate true).2.isBasic c = true) : c = q := by
  obtain ⟨i, hi⟩ := (isBasic_iff _ c).mp hin
  rw [h.basis] at hi
  split_ifs at hi
  · exact hi.symm
  · exact absurd hi ((t.isBasic_eq_false c).mp hout i)

end Blocked

-- What is true and no longer true later on stops being true at some step.
theorem exists_last_step {p : ℕ → Prop} {a b : ℕ} (hab : a ≤ b) (ha : p a) (hb : ¬p b) :
    ∃ k, a ≤ k ∧ k < b ∧ p k ∧ ¬p (k + 1) := by
  induction b, hab using Nat.le_induction with
  | base => exact absurd ha hb
  | succ b hab ih =>
    by_cases hp : p b
    · exact ⟨b, hab, b.lt_succ_self, hp, hb⟩
    · obtain ⟨k, hak, hkb, hk⟩ := ih hp
      exact ⟨k, hak, hkb.trans b.lt_succ_self, hk⟩

-- The column is basic at one of the steps from `i` to `j` and not basic at another one.
def Fickle (t : Tableau ℚ m n) (i j : ℕ) (c : Fin n) : Prop :=
  ∀ basic, ∃ k, i ≤ k ∧ k ≤ j ∧ (t.afterBland k).isBasic c = basic

-- When the basis comes back, such a column both enters and leaves.
theorem Fickle.exists_change {i j : ℕ} {c : Fin n} (h : t.Fickle i j c)
    (hreturn : (t.afterBland i).columns = (t.afterBland j).columns) (basic : Bool) :
    ∃ k, i ≤ k ∧ k < j ∧ (t.afterBland k).isBasic c = basic ∧
      (t.afterBland (k + 1)).isBasic c = !basic := by
  obtain ⟨a, hia, haj, ha⟩ := h basic
  obtain ⟨b, hib, hbj, hb⟩ := h !basic
  have hsame : (t.afterBland i).isBasic c = (t.afterBland j).isBasic c := by
    rw [Bool.eq_iff_iff, ← mem_columns, ← mem_columns, hreturn]
  by_cases hi : (t.afterBland i).isBasic c = basic
  · obtain ⟨k, hik, hkb, hk, hk'⟩ := exists_last_step
      (p := fun k => (t.afterBland k).isBasic c = basic) hib hi (by simp [hb])
    exact ⟨k, hik, by omega, hk, Bool.eq_not_of_ne hk'⟩
  · obtain ⟨k, hak, hkj, hk, hk'⟩ := exists_last_step
      (p := fun k => (t.afterBland k).isBasic c = basic) haj ha (hsame ▸ hi)
    exact ⟨k, by omega, hkj, hk, Bool.eq_not_of_ne hk'⟩

-- The first `steps` steps of the run go nowhere.
def StallsFor (t : Tableau ℚ m n) (steps : ℕ) : Prop :=
  ∀ k < steps, (t.afterBland k).Stalls ∧ (t.afterBland k).LimitsClear

namespace StallsFor

variable {steps i j k : ℕ} {c : Fin n}

theorem keeps (h : t.StallsFor steps) (ht : t.Sound) (hk : k ≤ steps) :
    (t.afterBland k).Sound ∧ t.Alike (t.afterBland k) := by
  induction k with
  | zero => exact ⟨ht, .refl t⟩
  | succ k ih =>
    obtain ⟨hsound, halike⟩ := ih (by omega)
    obtain ⟨hsound', halike'⟩ := (h k hk).1.keeps hsound
    rw [afterBland_succ]
    exact ⟨hsound', halike.trans halike'⟩

theorem blocked (h : t.StallsFor steps) (hk : k < steps) : ∃ r q, (t.afterBland k).Blocked r q :=
  (h k hk).1.blocked (h k hk).2

-- A column that comes back has room, since it enters once.
theorem isMovable_of_fickle (h : t.StallsFor steps) (ht : t.Sound) (hj : j ≤ steps)
    (hreturn : (t.afterBland i).columns = (t.afterBland j).columns) (hc : t.Fickle i j c) :
    t.isMovable c = true := by
  obtain ⟨k, _, hkj, hout, hin⟩ := hc.exists_change hreturn false
  obtain ⟨r, q, hb⟩ := h.blocked (hkj.trans_le hj)
  rw [afterBland_succ] at hin
  obtain rfl := hb.eq_of_enters hout hin
  obtain ⟨_, halike⟩ := h.keeps ht (hkj.trans_le hj).le
  exact halike.symm.isMovable ((canEnter_iff _ c).mp (canEnter_of_entering? _ hb.enters)).2.1

theorem fickle_of_blocked {r : Fin m} (hb : (t.afterBland k).Blocked r c) (hik : i ≤ k)
    (hkj : k < j) : t.Fickle i j c := by
  rintro (_ | _)
  · exact ⟨k, hik, hkj.le, ((canEnter_iff _ c).mp (canEnter_of_entering? _ hb.enters)).2.2⟩
  · refine ⟨k + 1, by omega, hkj, ?_⟩
    rw [afterBland_succ]
    exact hb.isBasic_entering

-- The argument looks at the largest column that comes back, at the step at which it leaves and at
-- the one at which it enters.
theorem columns_ne (h : t.StallsFor steps) (ht : t.Sound) (hij : i < j) (hj : j ≤ steps) :
    (t.afterBland i).columns ≠ (t.afterBland j).columns := by
  intro hreturn
  obtain ⟨p, hp, hlargest⟩ : ∃ p, t.Fickle i j p ∧ ∀ c, t.Fickle i j c → c ≤ p := by
    obtain ⟨r, q, hb⟩ := h.blocked (hij.trans_le hj)
    exact Set.exists_max_image {c | t.Fickle i j c} id (Set.toFinite _)
      ⟨q, fickle_of_blocked hb le_rfl hij⟩
  obtain ⟨k, hik, hkj, hin, hout⟩ := hp.exists_change hreturn true
  obtain ⟨l, hil, hlj, hout', hin'⟩ := hp.exists_change hreturn false
  obtain ⟨r, q, hb⟩ := h.blocked (hkj.trans_le hj)
  obtain ⟨r', q', hb'⟩ := h.blocked (hlj.trans_le hj)
  rw [afterBland_succ] at hout hin'
  obtain rfl := hb.eq_of_leaves hin hout
  obtain rfl := hb'.eq_of_enters hout' hin'
  obtain ⟨hsound, halike⟩ := h.keeps ht (hkj.trans_le hj).le
  obtain ⟨hsound', halike'⟩ := h.keeps ht (hlj.trans_le hj).le
  have hq := fickle_of_blocked hb hik hkj
  have hne : q ≠ (t.afterBland k).basis.get r :=
    (nonbasic_of_canEnter (canEnter_of_entering? _ hb.enters) r).symm
  refine (halike.symm.trans halike').not_enters_again hsound hsound' hb
    ((h k (by omega)).1.entries q hb.enters) (h l (by omega)).1.prices
    (lt_of_le_of_ne (hlargest q hq) hne) (fun s hs => ?_) hb'.enters
  have hfickle : t.Fickle i j ((t.afterBland k).basis.get s) := by
    rintro (_ | _)
    · exact ⟨l, hil, hlj.le, hs⟩
    · exact ⟨k, hik, hkj.le, (isBasic_iff _ _).mpr ⟨s, rfl⟩⟩
  exact ⟨hlargest _ hfickle,
    halike.isMovable (h.isMovable_of_fickle ht hj hreturn hfickle)⟩

theorem lt_choose (h : t.StallsFor steps) (ht : t.Sound) : steps < n.choose m := by
  have hinj : Set.InjOn (fun k => (t.afterBland k).columns) (Finset.range (steps + 1)) := by
    intro i hi j hj hsame
    rw [Finset.coe_range, Set.mem_Iio] at hi hj
    rcases lt_trichotomy i j with hlt | heq | hlt
    · exact absurd hsame (h.columns_ne ht hlt (by omega))
    · exact heq
    · exact absurd hsame.symm (h.columns_ne ht hlt (by omega))
  have hmaps : Set.MapsTo (fun k => (t.afterBland k).columns) (Finset.range (steps + 1))
      (Finset.powersetCard m (Finset.univ : Finset (Fin n))) := by
    intro k hk
    have hk' : k ≤ steps := by
      rw [Finset.coe_range, Set.mem_Iio] at hk
      omega
    refine Finset.mem_coe.mpr (Finset.mem_powersetCard.mpr ⟨Finset.subset_univ _, ?_⟩)
    exact card_columns (h.keeps ht hk').1.canonical
  have hcard := Finset.card_le_card_of_injOn _ hmaps hinj
  rw [Finset.card_range, Finset.card_powersetCard, Finset.card_univ, Fintype.card_fin] at hcard
  omega

end StallsFor

-- As long as the steps have no length and the tolerance tells prices, entries and limits from zero,
-- no basis comes back, so there are no more such steps than there are bases.
theorem bland_never_returns (hc : t.Canonical) (hp : t.Priced)
    (hf : ∀ i, 0 ≤ t.rhs.get i ∧
      ∀ s, t.span.get (t.basis.get i) = some s → t.rhs.get i ≤ s) :
    (∀ steps, t.StallsFor steps →
      ∀ i j, i < j → j ≤ steps → (t.afterBland i).columns ≠ (t.afterBland j).columns) ∧
    ∃ k < n.choose m, ¬((t.afterBland k).Stalls ∧ (t.afterBland k).LimitsClear) := by
  have ht : t.Sound := ⟨hc, hp, hf⟩
  refine ⟨fun steps h i j hij hj => h.columns_ne ht hij hj, ?_⟩
  by_contra hall
  push Not at hall
  have hstalls : t.StallsFor (n.choose m) := fun k hk => hall k hk
  exact lt_irrefl _ (hstalls.lt_choose ht)

-- Column 0 leaves at its upper bound at the first step, and six steps go nowhere before the last
-- one finds the column that nothing stops.
theorem bland_never_returns_of_departure_at_upper :
    let matrix : Vector (Vector ℚ 6) 2 := #v[#v[1, 0, -1, -1, 2, 1], #v[0, 1, -3, -2, 3, 1]]
    let t := start matrix #v[5, 0] #v[0, 0, 1, 2, -4, -1] #v[0, 0, 0, 0, 0, 0]
      #v[some 5, none, none, none, none, none] #v[0, 1]
    t.Canonical ∧ t.Priced ∧
      (∀ i, 0 ≤ t.rhs.get i ∧ ∀ s, t.span.get (t.basis.get i) = some s → t.rhs.get i ≤ s) ∧
      t.StallsFor 6 ∧ (t.afterBland 1).complemented.get 0 = true ∧
      (∀ i j, i < j → j ≤ 6 → (t.afterBland i).columns ≠ (t.afterBland j).columns) ∧
      ((t.afterBland 6).move true).step = .unbounded := by
  intro matrix t
  have hu : UnitColumns matrix #v[0, 1] := by
    unfold UnitColumns
    decide +kernel
  have hfirst : t.Consistent := start_consistent hu
  have hp : t.Priced := reprice_priced hfirst.canonical
  have hover : t.Overshoot 0 := by decide +kernel
  have hf : ∀ i, 0 ≤ t.rhs.get i ∧
      ∀ s, t.span.get (t.basis.get i) = some s → t.rhs.get i ≤ s := by
    simpa [Overshoot] using hover
  have hstalls : t.StallsFor 6 := by
    unfold StallsFor
    decide +kernel
  refine ⟨hfirst.canonical, hp, hf, hstalls, by decide +kernel,
    (bland_never_returns hfirst.canonical hp hf).1 6 hstalls, by decide +kernel⟩

-- Without the condition on the limits the rule may go in circles. The ratio test compares each row
-- with the best one so far, so limits that differ by no more than the tolerance lead it from the
-- row that it should take over two longer ones to a row of no length with a larger basic column.
theorem bland_returns_of_chained_ties :
    let matrix : Vector (Vector ℚ 8) 4 :=
      #v[#v[0, 0, 1, 0, 1, 1, -2, -1], #v[0, 1, 0, 0, 0, 0, 0, -1], #v[1, 0, 0, 0, 0, 0, 0, -1],
        #v[0, 0, 0, 1, -3, -2, 3, 1]]
    let t := start matrix #v[0, 1 / 2 ^ 30, 1 / 2 ^ 29, 0] #v[0, 0, 0, 0, 1, 2, -4, -1]
      (Vector.replicate 8 0) (Vector.replicate 8 none) #v[2, 1, 0, 3]
    t.Canonical ∧ t.Priced ∧
      (∀ i, 0 ≤ t.rhs.get i ∧ ∀ s, t.span.get (t.basis.get i) = some s → t.rhs.get i ≤ s) ∧
      t.afterBland 6 = t ∧ ∀ k, (t.afterBland k).Stalls := by
  intro matrix t
  have hu : UnitColumns matrix #v[2, 1, 0, 3] := by
    unfold UnitColumns
    decide +kernel
  have hfirst : t.Consistent := start_consistent hu
  have hover : t.Overshoot 0 := by decide +kernel
  have hback : t.afterBland 6 = t := by
    rw [Tableau.mk.injEq]
    decide +kernel
  have hsteps : ∀ k < 6, (t.afterBland k).Stalls := by decide +kernel
  refine ⟨hfirst.canonical, reprice_priced hfirst.canonical, by simpa [Overshoot] using hover,
    hback, fun k => ?_⟩
  have hperiod : Function.IsPeriodicPt (fun u : Tableau ℚ 4 8 => (u.iterate true).2) 6 t := hback
  have hk := hsteps (k % 6) (Nat.mod_lt k (by norm_num))
  rwa [afterBland, hperiod.iterate_mod_apply] at hk

end Run

end Tableau

end LinearProgram
