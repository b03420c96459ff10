import LinearProgram.Proofs.Constraint
import LinearProgram.Proofs.Integrity

namespace LinearProgram

-- What folding makes of the constraint: a factor beyond the tolerance limits its variable. The
-- variable may miss its limit by `t`.
def Constraint.Limits (c : Constraint ℚ) (t : ℚ) (point : ℕ → ℚ) : Prop :=
  ∀ a ∈ c.expression.atoms, eps < |a.factor| →
    c.relation.HoldsWithin (|a.factor| * t) (a.factor * point a.var.index) c.bound

-- A constraint with at most one atom, where the atom has a factor within the tolerance.
def Constraint.IsConstant (c : Constraint ℚ) : Prop :=
  ∀ a ∈ c.expression.atoms, |a.factor| ≤ eps

theorem ne_zero_of_large {factor : ℚ} (h : eps < |factor|) : factor ≠ 0 := by
  rintro rfl
  rw [abs_zero] at h
  exact absurd h (not_lt.mpr eps_nonneg)

namespace Bounds

variable {n : ℕ}

-- Every value lies between its bounds, or past one of them by no more than `t`.
structure Within (bounds : Bounds ℚ n) (t : ℚ) (point : ℕ → ℚ) : Prop where
  lower : ∀ j, bounds.lower.get j - t ≤ point j
  upper : ∀ j u, bounds.upper.get j = some u → point j ≤ u + t

-- The bounds of the list on top of those before.
structure Folds (cs : List (Constraint ℚ)) (before after : Bounds ℚ n) : Prop where
  within : ∀ t point, after.Within t point ↔ before.Within t point ∧ ∀ c ∈ cs, c.Limits t point
  lower : ∀ j, before.lower.get j ≤ after.lower.get j
  constant : ∀ c ∈ cs, c.IsConstant → c.relation.HoldsWithin eps 0 c.bound

theorem within_initial (t : ℚ) (point : ℕ → ℚ) :
    (initial : Bounds ℚ n).Within t point ↔ ∀ j : Fin n, -t ≤ point j := by
  constructor
  · intro h j
    simpa [initial] using h.lower j
  · intro h
    refine ⟨fun j => ?_, fun j u hu => ?_⟩
    · simpa [initial] using h j
    · simp [initial] at hu

theorem tightenUpper_iff {limit : Option ℚ} {value x t : ℚ} :
    (∀ u, tightenUpper limit value = some u → x ≤ u + t) ↔
      (∀ u, limit = some u → x ≤ u + t) ∧ x ≤ value + t := by
  cases limit with
  | none => simp [tightenUpper]
  | some u => simp [tightenUpper, ← min_add_add_right]

theorem narrow_lower (bounds : Bounds ℚ n) (i : ℕ) (r : Relation) (v : ℚ) (j : Fin n) :
    (bounds.narrow i r v).lower.get j =
      if i = j ∧ (r = .eq ∨ r = .ge) then max (bounds.lower.get j) v
      else bounds.lower.get j := by
  cases r <;> simp [narrow, eq_comm]

theorem narrow_upper (bounds : Bounds ℚ n) (i : ℕ) (r : Relation) (v : ℚ) (j : Fin n) :
    (bounds.narrow i r v).upper.get j =
      if i = j ∧ (r = .eq ∨ r = .le) then tightenUpper (bounds.upper.get j) v
      else bounds.upper.get j := by
  cases r <;> simp [narrow, eq_comm]

theorem narrow_lower_le (bounds : Bounds ℚ n) (i : ℕ) (r : Relation) (v : ℚ) (j : Fin n) :
    bounds.lower.get j ≤ (bounds.narrow i r v).lower.get j := by
  rw [narrow_lower]
  split_ifs
  · exact le_max_left _ _
  · exact le_rfl

section Narrow

variable (bounds : Bounds ℚ n) (i : Fin n) (v t : ℚ) (point : ℕ → ℚ)

private theorem lower_narrow :
    (∀ j : Fin n, (if j.val = i then max (bounds.lower.get j) v else bounds.lower.get j) - t ≤
      point j) ↔ (∀ j : Fin n, bounds.lower.get j - t ≤ point j) ∧ v - t ≤ point i := by
  constructor
  · intro h
    refine ⟨fun j => ?_, ?_⟩
    · have hj := h j
      split_ifs at hj
      · linarith [le_max_left (bounds.lower.get j) v]
      · exact hj
    · have hi := h i
      rw [if_pos rfl] at hi
      linarith [le_max_right (bounds.lower.get i) v]
  · rintro ⟨h, hi⟩ j
    split_ifs with hj
    · obtain rfl := Fin.ext hj
      rcases max_choice (bounds.lower.get j) v with he | he
      · rw [he]
        exact h j
      · rwa [he]
    · exact h j

private theorem upper_narrow :
    (∀ (j : Fin n) u, (if j.val = i then tightenUpper (bounds.upper.get j) v
      else bounds.upper.get j) = some u → point j ≤ u + t) ↔
      (∀ j u, bounds.upper.get j = some u → point j ≤ u + t) ∧ point i ≤ v + t := by
  constructor
  · intro h
    have hi := h i
    rw [if_pos rfl] at hi
    have hlimit := tightenUpper_iff.mp hi
    refine ⟨fun j => ?_, hlimit.2⟩
    by_cases hj : j = i
    · rw [hj]
      exact hlimit.1
    · have hne : j.val ≠ i := fun he => hj (Fin.ext he)
      simpa [hne] using h j
  · rintro ⟨h, hi⟩ j
    split_ifs with hj
    · obtain rfl := Fin.ext hj
      exact tightenUpper_iff.mpr ⟨h j, hi⟩
    · exact h j

theorem within_narrow (r : Relation) :
    (bounds.narrow i r v).Within t point ↔ bounds.Within t point ∧ r.HoldsWithin t (point i) v := by
  have hl := lower_narrow bounds i v t point
  have hu := upper_narrow bounds i v t point
  have hiff : ∀ b : Bounds ℚ n, b.Within t point ↔
      (∀ j, b.lower.get j - t ≤ point j) ∧ ∀ j u, b.upper.get j = some u → point j ≤ u + t :=
    fun b => ⟨fun h => ⟨h.1, h.2⟩, fun h => ⟨h.1, h.2⟩⟩
  rw [hiff, hiff]
  cases r with
  | le =>
    simp only [narrow, Vector.get_ofFn]
    rw [hu, and_assoc]
    rfl
  | ge =>
    simp only [narrow, Vector.get_ofFn, greater_eq_max]
    rw [hl, and_right_comm]
    rfl
  | eq =>
    simp only [narrow, Vector.get_ofFn, greater_eq_max]
    have hv : Relation.HoldsWithin .eq t (point i) v ↔ v - t ≤ point i ∧ point i ≤ v + t := by
      change |point i - v| ≤ t ↔ _
      rw [abs_le]
      constructor <;> rintro ⟨h₁, h₂⟩ <;> constructor <;> linarith
    rw [hl, hu, hv]
    tauto

end Narrow

section Fold

variable {bounds after : Bounds ℚ n} {c : Constraint ℚ}

theorem atoms_of_not_isPolynomial (hp : c.isPolynomial = false) :
    c.expression.atoms = [] ∨ ∃ a, c.expression.atoms = [a] := by
  have hsize : ¬1 < c.expression.size := of_decide_eq_false hp
  unfold Expression.size at hsize
  cases h : c.expression.atoms with
  | nil => exact Or.inl rfl
  | cons a rest =>
    rw [h, List.length_cons] at hsize
    rw [List.length_eq_zero_iff.mp (by omega : rest.length = 0)]
    exact Or.inr ⟨a, rfl⟩

-- The bounds with the limit of the constraint, if it has one.
def narrowed (bounds : Bounds ℚ n) (c : Constraint ℚ) : Bounds ℚ n :=
  match c.expression.atoms.head? with
  | none => bounds
  | some a =>
    if eps < |a.factor| then
      bounds.narrow a.var.index (if a.factor < 0 then c.relation.reversed else c.relation)
        (c.bound / a.factor)
    else
      bounds

theorem narrowed_of_isConstant (bounds : Bounds ℚ n) (hconst : c.IsConstant) :
    bounds.narrowed c = bounds := by
  unfold narrowed
  cases ha : c.expression.atoms with
  | nil => rfl
  | cons a rest =>
    have hsmall := hconst a (by rw [ha]; exact List.mem_cons_self)
    simp only [List.head?_cons]
    exact if_neg (not_lt.mpr hsmall)

theorem narrowed_of_large (bounds : Bounds ℚ n) {a : Atom ℚ} (ha : c.expression.atoms = [a])
    (hlarge : eps < |a.factor|) :
    bounds.narrowed c = bounds.narrow a.var.index
      (if a.factor < 0 then c.relation.reversed else c.relation) (c.bound / a.factor) := by
  unfold narrowed
  rw [ha, List.head?_cons]
  exact if_pos hlarge

theorem isConstant_or_large (hp : c.isPolynomial = false) :
    c.IsConstant ∨ ∃ a, c.expression.atoms = [a] ∧ eps < |a.factor| := by
  rcases atoms_of_not_isPolynomial hp with ha | ⟨a, ha⟩
  · exact .inl fun b hb => absurd (ha ▸ hb) List.not_mem_nil
  · by_cases hlarge : eps < |a.factor|
    · exact .inr ⟨a, ha, hlarge⟩
    · refine .inl fun b hb => ?_
      rw [ha, List.mem_singleton] at hb
      rw [hb]
      exact not_lt.mp hlarge

-- A constraint without a limit of its own is refused unless zero satisfies it.
theorem absorb_of_isConstant (bounds : Bounds ℚ n) (hconst : c.IsConstant) :
    bounds.absorb c =
      if Constraint.relates 0 c.relation c.bound then .ok bounds
      else .error (.infeasible (.constantConstraint c)) := by
  unfold absorb
  cases ha : c.expression.atoms with
  | nil => rfl
  | cons a rest =>
    have hsmall := hconst a (by rw [ha]; exact List.mem_cons_self)
    simp only [List.head?_cons, magnitude_eq_abs]
    exact if_neg (not_lt.mpr hsmall)

theorem absorb_of_large (bounds : Bounds ℚ n) {a : Atom ℚ} (ha : c.expression.atoms = [a])
    (hlarge : eps < |a.factor|) : bounds.absorb c = .ok (bounds.narrowed c) := by
  rw [narrowed_of_large bounds ha hlarge]
  unfold absorb
  simp only [ha, List.head?_cons, magnitude_eq_abs]
  exact if_pos hlarge

theorem within_narrowed (bounds : Bounds ℚ n) (hp : c.isPolynomial = false)
    (hc : ∀ a ∈ c.expression.atoms, a.var.index < n) (t : ℚ) (point : ℕ → ℚ) :
    (bounds.narrowed c).Within t point ↔ bounds.Within t point ∧ c.Limits t point := by
  rcases isConstant_or_large hp with hconst | ⟨a, ha, hlarge⟩
  · have hnone : c.Limits t point := fun a hm hlarge => absurd (hconst a hm) (not_le.mpr hlarge)
    rw [narrowed_of_isConstant bounds hconst]
    exact (and_iff_left hnone).symm
  · have hlt : a.var.index < n := hc a (by rw [ha]; exact List.mem_cons_self)
    rw [narrowed_of_large bounds ha hlarge, within_narrow bounds ⟨a.var.index, hlt⟩,
      Relation.holdsWithin_div _ (ne_zero_of_large hlarge)]
    simp [Constraint.Limits, ha, hlarge]

theorem narrowed_lower_le (bounds : Bounds ℚ n) (hp : c.isPolynomial = false) (j : Fin n) :
    bounds.lower.get j ≤ (bounds.narrowed c).lower.get j := by
  rcases isConstant_or_large hp with hconst | ⟨a, ha, hlarge⟩
  · rw [narrowed_of_isConstant bounds hconst]
  · rw [narrowed_of_large bounds ha hlarge]
    exact narrow_lower_le _ _ _ _ j

theorem absorb_folds (h : bounds.absorb c = .ok after) (hp : c.isPolynomial = false)
    (hc : ∀ a ∈ c.expression.atoms, a.var.index < n) : bounds.Folds [c] after := by
  have hafter : after = bounds.narrowed c ∧
      (c.IsConstant → c.relation.HoldsWithin eps 0 c.bound) := by
    rcases isConstant_or_large hp with hconst | ⟨a, ha, hlarge⟩
    · rw [absorb_of_isConstant bounds hconst] at h
      split_ifs at h with hr
      rw [narrowed_of_isConstant bounds hconst]
      exact ⟨(Except.ok.inj h).symm, fun _ => (relates_iff _ _ _).mp hr⟩
    · rw [absorb_of_large bounds ha hlarge] at h
      refine ⟨(Except.ok.inj h).symm, fun hconst => ?_⟩
      exact absurd (hconst a (by rw [ha]; exact List.mem_cons_self)) (not_le.mpr hlarge)
  obtain ⟨rfl, hholds⟩ := hafter
  refine ⟨fun t point => ?_, narrowed_lower_le bounds hp, fun d hd => ?_⟩
  · simpa using within_narrowed bounds hp hc t point
  · rw [List.mem_singleton.mp hd]
    exact hholds

theorem Folds.append {cs ds : List (Constraint ℚ)} {mid : Bounds ℚ n} (h : bounds.Folds cs mid)
    (h' : mid.Folds ds after) : bounds.Folds (cs ++ ds) after := by
  refine ⟨fun t point => ?_, fun j => (h.lower j).trans (h'.lower j), fun c hc => ?_⟩
  · rw [h'.within, h.within, and_assoc, List.forall_mem_append]
  · exact (List.mem_append.mp hc).elim (h.constant c) (h'.constant c)

theorem foldlM_absorb {cs : List (Constraint ℚ)} (h : cs.foldlM absorb bounds = .ok after)
    (hp : ∀ c ∈ cs, c.isPolynomial = false)
    (hc : ∀ c ∈ cs, ∀ a ∈ c.expression.atoms, a.var.index < n) : bounds.Folds cs after := by
  induction cs generalizing bounds with
  | nil =>
    obtain rfl := Except.ok.inj h
    exact ⟨fun t point => by simp, fun j => le_rfl, fun c hm => absurd hm List.not_mem_nil⟩
  | cons c rest ih =>
    rw [List.foldlM_cons] at h
    obtain ⟨mid, hmid, hrest⟩ := bind_eq_ok.mp h
    have hfirst := absorb_folds hmid (hp c List.mem_cons_self) (hc c List.mem_cons_self)
    exact hfirst.append (ih hrest (fun d hd => hp d (List.mem_cons_of_mem _ hd))
      fun d hd => hc d (List.mem_cons_of_mem _ hd))

end Fold

section Settle

variable {raw : Bounds ℚ n} {t excess : ℚ} {point : ℕ → ℚ}

theorem settle_upper (raw : Bounds ℚ n) (j : Fin n) :
    raw.settle.upper.get j = (raw.upper.get j).map fun u => max u (raw.lower.get j) := by
  simp [settle]

theorem settle_lower_le_upper {j : Fin n} {u : ℚ} (hu : raw.settle.upper.get j = some u) :
    raw.settle.lower.get j ≤ u := by
  rw [settle_upper] at hu
  obtain ⟨v, _, rfl⟩ := Option.map_eq_some_iff.mp hu
  exact le_max_right _ _

theorem Within.settle (h : raw.Within t point) : raw.settle.Within t point := by
  refine ⟨h.lower, fun j u hu => ?_⟩
  rw [settle_upper] at hu
  obtain ⟨v, hv, rfl⟩ := Option.map_eq_some_iff.mp hu
  linarith [h.upper j v hv, le_max_left v (raw.lower.get j)]

-- Settling lifts no upper bound by more than the bounds cross.
theorem Within.of_settle (h : raw.settle.Within t point) (hexcess : 0 ≤ excess)
    (hcross : ∀ j u, raw.upper.get j = some u → raw.lower.get j ≤ u + excess) :
    raw.Within (t + excess) point := by
  refine ⟨fun j => ?_, fun j u hu => ?_⟩
  · have hl : raw.lower.get j - t ≤ point j := h.lower j
    linarith
  · have hj := h.upper j (max u (raw.lower.get j)) (by rw [settle_upper, hu]; rfl)
    have hmax : max u (raw.lower.get j) ≤ u + excess := max_le (by linarith) (hcross j u hu)
    linarith

end Settle

-- What the folded bounds say of the constraints they come from.
structure Summarizes (bounds : Bounds ℚ n) (cs : List (Constraint ℚ)) : Prop where
  lower_nonneg : ∀ j, 0 ≤ bounds.lower.get j
  lower_le_upper : ∀ j u, bounds.upper.get j = some u → bounds.lower.get j ≤ u
  admits : ∀ t point, (∀ j : Fin n, -t ≤ point j) → (∀ c ∈ cs, c.Limits t point) →
    bounds.Within t point
  limits : ∀ t point, bounds.Within t point → ∀ c ∈ cs, c.Limits (t + eps) point
  -- Nothing is lost when some point satisfies all of them.
  limits_exactly : (∃ point : ℕ → ℚ, (∀ j : Fin n, 0 ≤ point j) ∧ ∀ c ∈ cs, c.Limits 0 point) →
    ∀ t point, bounds.Within t point → ∀ c ∈ cs, c.Limits t point
  constant : ∀ c ∈ cs, c.IsConstant → c.relation.HoldsWithin eps 0 c.bound

theorem Folds.summarizes {cs : List (Constraint ℚ)} {raw : Bounds ℚ n}
    (h : initial.Folds cs raw)
    (hcross : ∀ j u, raw.upper.get j = some u → raw.lower.get j ≤ u + eps) :
    raw.settle.Summarizes cs := by
  refine ⟨fun j => ?_, fun j u hu => settle_lower_le_upper hu, fun t point hx hc => ?_,
    fun t point hw c hc => ?_, fun hpoint t point hw c hc => ?_, h.constant⟩
  · have hj := h.lower j
    simpa [initial, settle] using hj
  · exact ((h.within t point).mpr ⟨(within_initial t point).mpr hx, hc⟩).settle
  · exact ((h.within _ point).mp (hw.of_settle eps_nonneg hcross)).2 c hc
  · obtain ⟨other, hnonneg, hother⟩ := hpoint
    have hinside := (h.within 0 other).mpr
      ⟨(within_initial 0 other).mpr fun j => by simpa using hnonneg j, hother⟩
    have hnone : ∀ j u, raw.upper.get j = some u → raw.lower.get j ≤ u + 0 := by
      intro j u hu
      linarith [hinside.lower j, hinside.upper j u hu]
    have hraw := hw.of_settle le_rfl hnone
    rw [add_zero] at hraw
    exact ((h.within t point).mp hraw).2 c hc

-- The bounds of a model before they are settled.
def unsettled (m : Model ℚ) : Except (Error ℚ) (Bounds ℚ m.vars.length) :=
  (m.constraints.filter fun c => !c.isPolynomial).foldlM absorb initial

theorem ofModel_eq_ok {m : Model ℚ} {bounds : Bounds ℚ m.vars.length}
    (h : Bounds.ofModel m = .ok bounds) :
    ∃ raw, unsettled m = .ok raw ∧ bounds = raw.settle ∧
      ∀ j u, raw.upper.get j = some u → raw.lower.get j ≤ u + eps := by
  obtain ⟨raw, hraw, hrest⟩ := bind_eq_ok.mp h
  split at hrest
  · exact absurd hrest (by simp [throw, throwThe, MonadExceptOf.throw])
  · rename_i hnone
    refine ⟨raw, hraw, (Except.ok.inj hrest).symm, fun j u hu => ?_⟩
    have hj := List.find?_eq_none.mp hnone j (List.mem_finRange j)
    simpa [isContradictory, hu] using hj

theorem ofModel_summarizes {m : Model ℚ} {bounds : Bounds ℚ m.vars.length}
    (h : Bounds.ofModel m = .ok bounds)
    (hm : ∀ c ∈ m.constraints, ∀ a ∈ c.expression.atoms, a.var.index < m.vars.length) :
    bounds.Summarizes (m.constraints.filter fun c => !c.isPolynomial) := by
  obtain ⟨raw, hraw, rfl, hcross⟩ := ofModel_eq_ok h
  have hfolds := foldlM_absorb hraw (fun c hc => by simpa using (List.mem_filter.mp hc).2)
    fun c hc => hm c (List.mem_filter.mp hc).1
  exact hfolds.summarizes hcross

end Bounds

end LinearProgram
