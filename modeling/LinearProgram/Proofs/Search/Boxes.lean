import LinearProgram.Proofs.Folding
import LinearProgram.Proofs.Search.Branches

namespace LinearProgram

-- A bound may be missed by half of what still counts as integral.
def margin : ℚ :=
  integralityEps / 2

section Cuts

variable {x lower upper : ℚ}

theorem eps_lt_margin : eps < margin := by
  unfold margin eps integralityEps
  norm_num

theorem integralityEps_eq : integralityEps = margin + margin := by
  unfold margin
  ring

-- How many gaps between neighbouring integers reach into the bounds by more than the margin.
def cutsBetween (lower upper : ℚ) : ℕ :=
  (⌈upper - margin⌉ - ⌊lower + margin⌋).toNat

theorem floor_add_lt (hx : integralityEps < |x - Scalar.round x|) :
    ⌊x⌋ + integralityEps < x := by
  have hnear := hx.trans_le (abs_sub_round_le x ⌊x⌋)
  rw [abs_of_nonneg (sub_nonneg.mpr (Int.floor_le x))] at hnear
  linarith

theorem add_lt_ceil (hx : integralityEps < |x - Scalar.round x|) :
    x + integralityEps < ⌈x⌉ := by
  have hnear := hx.trans_le (abs_sub_round_le x ⌈x⌉)
  rw [abs_sub_comm, abs_of_nonneg (sub_nonneg.mpr (Int.le_ceil x))] at hnear
  linarith

-- A value within the bounds that is not integral lies in one of these gaps.
theorem floor_lt_ceil_upper (hx : integralityEps < |x - Scalar.round x|)
    (hupper : x ≤ upper + margin) : ⌊x⌋ < ⌈upper - margin⌉ := by
  have hfloor := floor_add_lt hx
  rw [integralityEps_eq] at hfloor
  exact Int.lt_ceil.mpr (by linarith)

theorem floor_lower_lt_ceil (hx : integralityEps < |x - Scalar.round x|)
    (hlower : lower - margin ≤ x) : ⌊lower + margin⌋ < ⌈x⌉ := by
  have hceil := add_lt_ceil hx
  rw [integralityEps_eq] at hceil
  exact Int.floor_lt.mpr (by linarith)

theorem ceil_le_of_le_add_eps {k : ℤ} (h : upper ≤ k + eps) : ⌈upper - margin⌉ ≤ k :=
  Int.ceil_le.mpr (by linarith [eps_lt_margin])

-- The bound below the value closes its gap.
theorem cutsBetween_lt_of_le_floor (hx : integralityEps < |x - Scalar.round x|)
    (hlower : lower - margin ≤ x) (hupper : x ≤ upper + margin) {u : ℚ} (hu : u ≤ ⌊x⌋ + eps) :
    cutsBetween lower u < cutsBetween lower upper := by
  have hhigh := floor_lt_ceil_upper hx hupper
  have hlow := floor_lower_lt_ceil hx hlower
  have hstep := Int.ceil_le_floor_add_one x
  have hceil := ceil_le_of_le_add_eps hu
  unfold cutsBetween
  omega

-- So does the bound above it, even where the lower bound lifts the upper one.
theorem cutsBetween_lt_of_ceil (hx : integralityEps < |x - Scalar.round x|)
    (hlower : lower - margin ≤ x) (hupper : x ≤ upper + margin) {u : ℚ} (hu : u ≤ upper) :
    cutsBetween (max lower ⌈x⌉) (max u (max lower ⌈x⌉)) < cutsBetween lower upper := by
  have hhigh := floor_lt_ceil_upper hx hupper
  have hlow := floor_lower_lt_ceil hx hlower
  have hstep := Int.ceil_le_floor_add_one x
  have hraised : max lower (⌈x⌉ : ℚ) = ⌈x⌉ := by
    refine max_eq_right ?_
    linarith [Int.floor_lt.mp hlow, eps_lt_margin, eps_nonneg]
  have hfloor : ⌈x⌉ ≤ ⌊(⌈x⌉ : ℚ) + margin⌋ :=
    Int.le_floor.mpr (by linarith [eps_lt_margin, eps_nonneg])
  have hceil : ⌈max u (⌈x⌉ : ℚ) - margin⌉ ≤ max ⌈upper - margin⌉ ⌈x⌉ := by
    rcases max_choice u (⌈x⌉ : ℚ) with hmax | hmax
    · rw [hmax]
      exact (Int.ceil_le_ceil (by linarith)).trans (le_max_left _ _)
    · rw [hmax]
      exact (ceil_le_of_le_add_eps (by linarith [eps_nonneg])).trans (le_max_right _ _)
  rw [hraised]
  unfold cutsBetween
  omega

end Cuts

namespace Bounds

variable {n : ℕ} {raw : Bounds ℚ n} {i j : Fin n}

-- How many gaps a variable can still be branched in.
def cut (bounds : Bounds ℚ n) (j : Fin n) : ℕ :=
  match bounds.upper.get j with
  | some u => cutsBetween (bounds.lower.get j) u
  | none => 0

def cuts (bounds : Bounds ℚ n) : ℕ :=
  ∑ j, bounds.cut j

theorem cut_settle (raw : Bounds ℚ n) (j : Fin n) :
    raw.settle.cut j = match raw.upper.get j with
      | some u => cutsBetween (raw.lower.get j) (max u (raw.lower.get j))
      | none => 0 := by
  unfold cut
  rw [settle_upper]
  cases raw.upper.get j <;> rfl

section Narrow

variable {x u : ℚ}

theorem narrow_of_ne (raw : Bounds ℚ n) (r : Relation) (b : ℚ) (h : j ≠ i) :
    (raw.narrow i r b).lower.get j = raw.lower.get j ∧
      (raw.narrow i r b).upper.get j = raw.upper.get j := by
  have hne : j.val ≠ i.val := fun he => h (Fin.ext he)
  cases r <;> simp [narrow, hne]

theorem cut_narrow_of_ne (raw : Bounds ℚ n) (r : Relation) (b : ℚ) (h : j ≠ i) :
    (raw.narrow i r b).settle.cut j = raw.settle.cut j := by
  obtain ⟨hlower, hupper⟩ := narrow_of_ne raw r b h
  rw [cut_settle, cut_settle, hlower, hupper]

theorem cuts_narrow_lt {r : Relation} {b : ℚ}
    (h : (raw.narrow i r b).settle.cut i < raw.settle.cut i) :
    (raw.narrow i r b).settle.cuts < raw.settle.cuts := by
  refine Finset.sum_lt_sum (fun j _ => ?_) ⟨i, Finset.mem_univ i, h⟩
  by_cases hj : j = i
  · rw [hj]
    exact h.le
  · exact (cut_narrow_of_ne raw r b hj).le

variable (hx : integralityEps < |x - Scalar.round x|) (hu : raw.upper.get i = some u)
  (hlower : raw.lower.get i - margin ≤ x) (hupper : x ≤ max u (raw.lower.get i) + margin)

include hx hu hlower hupper

theorem cuts_narrow_floor_lt (hcross : ∀ w, (raw.narrow i .le ⌊x⌋).upper.get i = some w →
    (raw.narrow i .le ⌊x⌋).lower.get i ≤ w + eps) :
    (raw.narrow i .le ⌊x⌋).settle.cuts < raw.settle.cuts := by
  have hlow : (raw.narrow i .le ⌊x⌋).lower.get i = raw.lower.get i := rfl
  have hhigh : (raw.narrow i .le ⌊x⌋).upper.get i = some (min u ⌊x⌋) := by
    simp [narrow, tightenUpper, hu]
  have hclose := hcross _ hhigh
  rw [hlow] at hclose
  refine cuts_narrow_lt ?_
  rw [cut_settle, cut_settle, hhigh, hlow, hu]
  refine cutsBetween_lt_of_le_floor hx hlower hupper (max_le ?_ ?_)
  · linarith [min_le_right u (⌊x⌋ : ℚ), eps_nonneg]
  · linarith [min_le_right u (⌊x⌋ : ℚ)]

theorem cuts_narrow_ceil_lt :
    (raw.narrow i .ge ⌈x⌉).settle.cuts < raw.settle.cuts := by
  have hlow : (raw.narrow i .ge ⌈x⌉).lower.get i = max (raw.lower.get i) ⌈x⌉ := by
    simp [narrow]
  have hhigh : (raw.narrow i .ge ⌈x⌉).upper.get i = some u := hu
  refine cuts_narrow_lt ?_
  rw [cut_settle, cut_settle, hhigh, hlow, hu]
  exact cutsBetween_lt_of_ceil hx hlower hupper (le_max_left _ _)

end Narrow

-- The bound of a branch is one more step of the folding.
theorem simplify_single (v : Variable) (r : Relation) (b : ℚ) :
    (Constraint.single v r b).simplify = Constraint.single v r b := by
  rw [single_eq]
  split_ifs <;> rfl

theorem isPolynomial_single (v : Variable) (r : Relation) (b : ℚ) :
    (Constraint.single v r b).isPolynomial = false := by
  obtain ⟨factor, hatoms⟩ := single_atoms v r b
  simp [Constraint.isPolynomial, Expression.size, hatoms]

theorem absorb_single (bounds : Bounds ℚ n) (v : Variable) (r : Relation) (b : ℚ) :
    bounds.absorb (.single v r b) = .ok (bounds.narrow v.index r b) := by
  have hone : (eps : ℚ) < 1 := by
    unfold eps
    norm_num
  have hpos : ¬(1 : ℚ) < 0 := by norm_num
  rw [single_eq]
  split_ifs
  · simp [absorb, hone]
  · simp [absorb, hone, hpos]

theorem unsettled_push (m : Model ℚ) (v : Variable) (r : Relation) (b : ℚ) :
    unsettled (Model.simplify { m with constraints := m.constraints ++ [.single v r b] }) =
      unsettled m.simplify >>= fun raw => .ok (raw.narrow v.index r b) := by
  have hconstraints :
      (Model.simplify { m with constraints := m.constraints ++ [.single v r b] }).constraints =
        m.simplify.constraints ++ [.single v r b] := by
    simp [Model.simplify, simplify_single]
  unfold unsettled
  rw [hconstraints, List.filter_append, List.foldlM_append]
  simp only [List.filter_cons, List.filter_nil, isPolynomial_single, Bool.not_false, if_true,
    List.foldlM_cons, List.foldlM_nil, absorb_single, bind_pure]
  rfl

theorem narrow_upper_ne_none (h : raw.upper.get j ≠ none) (k : ℕ) (r : Relation) (b : ℚ) :
    (raw.narrow k r b).upper.get j ≠ none := by
  obtain ⟨u, hu⟩ := Option.ne_none_iff_exists'.mp h
  rw [narrow_upper, hu]
  split_ifs <;> simp [tightenUpper]

end Bounds

namespace Model

variable {m part : Model ℚ} {v : Variable} {value : ℚ} {parts : List (Model ℚ)}

-- The gaps in the box of the model. A model without a box is not branched.
def cuts (m : Model ℚ) : ℕ :=
  match Bounds.ofModel m.simplify with
  | .ok bounds => bounds.cuts
  | .error _ => 0

theorem cuts_eq {bounds : Bounds ℚ m.vars.length} (h : Bounds.ofModel m.simplify = .ok bounds) :
    m.cuts = bounds.cuts := by
  unfold cuts
  rw [h]
  rfl

-- Every variable has an upper bound.
def Boxed (m : Model ℚ) : Prop :=
  ∀ raw, Bounds.unsettled m.simplify = .ok raw → ∀ j, raw.upper.get j ≠ none

theorem boxed_of_ofModel {box : Bounds ℚ m.vars.length} (h : Bounds.ofModel m.simplify = .ok box)
    (hbox : ∀ j, box.upper.get j ≠ none) : m.Boxed := by
  intro raw hraw j hj
  obtain ⟨raw', hraw', rfl, _⟩ := Bounds.ofModel_eq_ok h
  obtain rfl := Except.ok.inj (hraw.symm.trans hraw')
  exact hbox j ((Bounds.settle_upper raw j).trans (congrArg _ hj))

theorem Boxed.push (h : m.Boxed) (v : Variable) (r : Relation) (b : ℚ) :
    Boxed { m with constraints := m.constraints ++ [.single v r b] } := by
  intro raw hraw j
  rw [Bounds.unsettled_push] at hraw
  obtain ⟨before, hbefore, hnew⟩ := bind_eq_ok.mp hraw
  obtain rfl := Except.ok.inj hnew
  exact Bounds.narrow_upper_ne_none (h before hbefore j) _ r b

theorem Boxed.of_mem_branches (h : m.Boxed) (hb : Search.branches m v value = .ok parts)
    (hp : part ∈ parts) : part.Boxed := by
  obtain ⟨_, rfl⟩ := Search.branches_eq_ok hb
  rcases List.mem_cons.mp hp with rfl | hp
  · exact h.push v .le _
  · rw [List.mem_singleton.mp hp]
    exact h.push v .ge _

-- The box of a branch, if it has one.
theorem cuts_push_lt {raw : Bounds ℚ m.vars.length} (hraw : Bounds.unsettled m.simplify = .ok raw)
    {i : Fin m.vars.length} (hi : i.val = v.index) {r : Relation} {b : ℚ} {n : ℕ} (hn : 0 < n)
    (h : (∀ u, (raw.narrow i r b).upper.get i = some u → (raw.narrow i r b).lower.get i ≤ u + eps) →
      (raw.narrow i r b).settle.cuts < n) :
    cuts { m with constraints := m.constraints ++ [.single v r b] } < n := by
  unfold cuts
  split
  · rename_i bounds hbounds
    obtain ⟨after, hafter, rfl, hcross⟩ := Bounds.ofModel_eq_ok hbounds
    rw [Bounds.unsettled_push, hraw, ← hi] at hafter
    obtain rfl := Except.ok.inj hafter
    exact h (hcross i)
  · exact hn

end Model

end LinearProgram
