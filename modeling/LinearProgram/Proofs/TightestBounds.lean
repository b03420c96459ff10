import LinearProgram.Proofs.Folding

namespace LinearProgram

-- The constraint limits its variable from this side, which is `.ge` from below and `.le` from
-- above. A negative factor turns the relation around.
def Constraint.LimitsFrom (c : Constraint ℚ) (side : Relation) (factor : ℚ) : Prop :=
  c.relation = .eq ∨ c.relation = side ∧ 0 < factor ∨ c.relation = side.reversed ∧ factor < 0

-- The limit that a constraint with one atom sets for variable `i` from this side, if it has one.
def Constraint.limits (c : Constraint ℚ) (side : Relation) (i : ℕ) : Set ℚ :=
  {v | ∃ a, c.expression.atoms = [a] ∧ eps < |a.factor| ∧ a.var.index = i ∧
    c.LimitsFrom side a.factor ∧ v = c.bound / a.factor}

def limitsOf (cs : List (Constraint ℚ)) (side : Relation) (i : ℕ) : Set ℚ :=
  {v | ∃ c ∈ cs, v ∈ c.limits side i}

-- The constraint has no limit to set, and zero does not satisfy it.
structure Constraint.Refuted (c : Constraint ℚ) : Prop where
  single : c.isPolynomial = false
  constant : c.IsConstant
  fails : ¬c.relation.HoldsWithin eps 0 c.bound

-- The least member, or none of an empty set.
def IsCeiling (s : Set ℚ) : Option ℚ → Prop
  | some u => IsLeast s u
  | none => s = ∅

theorem IsCeiling.insert {s : Set ℚ} {limit : Option ℚ} (h : IsCeiling s limit) (v : ℚ) :
    IsCeiling (s ∪ {v}) (tightenUpper limit v) := by
  cases limit with
  | none =>
    obtain rfl : s = ∅ := h
    simp [tightenUpper, IsCeiling]
  | some u =>
    have hleast : IsLeast s u := h
    simpa [tightenUpper, IsCeiling] using hleast.union isLeast_singleton

theorem IsCeiling.unique {s : Set ℚ} {limit other : Option ℚ} (h : IsCeiling s limit)
    (h' : IsCeiling s other) : limit = other := by
  cases limit with
  | none =>
    obtain rfl : s = ∅ := h
    cases other with
    | none => rfl
    | some v => exact absurd h'.1 (Set.notMem_empty v)
  | some u =>
    cases other with
    | none =>
      obtain rfl : s = ∅ := h'
      exact absurd h.1 (Set.notMem_empty u)
    | some v => exact congrArg some (IsLeast.unique h h')

section Limits

variable {c : Constraint ℚ} {a : Atom ℚ} {side : Relation} {i : ℕ}

theorem Constraint.limits_of_isConstant (hconst : c.IsConstant) : c.limits side i = ∅ := by
  rw [Set.eq_empty_iff_forall_notMem]
  rintro v ⟨a, ha, hlarge, _⟩
  exact absurd (hconst a (by rw [ha]; exact List.mem_cons_self)) (not_le.mpr hlarge)

theorem limitsOf_append (cs ds : List (Constraint ℚ)) (side : Relation) (i : ℕ) :
    limitsOf (cs ++ ds) side i = limitsOf cs side i ∪ limitsOf ds side i := by
  ext v
  simp [limitsOf, or_and_right, exists_or]

theorem limitsOf_single (c : Constraint ℚ) (side : Relation) (i : ℕ) :
    limitsOf [c] side i = c.limits side i := by
  ext v
  simp [limitsOf]

-- A row of the tableau sets no limit.
theorem limitsOf_filter (cs : List (Constraint ℚ)) (side : Relation) (i : ℕ) :
    limitsOf (cs.filter fun c => !c.isPolynomial) side i = limitsOf cs side i := by
  ext v
  refine exists_congr fun c => ⟨fun ⟨hc, hv⟩ => ⟨(List.mem_filter.mp hc).1, hv⟩, fun ⟨hc, hv⟩ => ?_⟩
  have hsingle : c.isPolynomial = false := by
    obtain ⟨a, ha, _⟩ := hv
    simp [Constraint.isPolynomial, Expression.size, ha]
  exact ⟨List.mem_filter.mpr ⟨hc, by simp [hsingle]⟩, hv⟩

theorem sided_iff (r : Relation) {factor : ℚ} (hne : factor ≠ 0) (hside : side ≠ .eq) :
    (if factor < 0 then r.reversed else r) = .eq ∨
        (if factor < 0 then r.reversed else r) = side ↔
      r = .eq ∨ r = side ∧ 0 < factor ∨ r = side.reversed ∧ factor < 0 := by
  rcases lt_or_gt_of_ne hne with hneg | hpos
  · have hn : ¬0 < factor := by linarith
    rw [if_pos hneg]
    cases r <;> cases side <;> simp_all [Relation.reversed]
  · have hn : ¬factor < 0 := by linarith
    rw [if_neg hn]
    cases r <;> cases side <;> simp_all

-- With a factor beyond the tolerance the constraint sets its limit on the sides that its relation
-- has after the division.
theorem Constraint.limits_cases (side : Relation) (ha : c.expression.atoms = [a])
    (hlarge : eps < |a.factor|) (hside : side ≠ .eq) (i : ℕ) :
    let r := if a.factor < 0 then c.relation.reversed else c.relation
    ((a.var.index = i ∧ (r = .eq ∨ r = side)) ∧ c.limits side i = {c.bound / a.factor}) ∨
      ¬(a.var.index = i ∧ (r = .eq ∨ r = side)) ∧ c.limits side i = ∅ := by
  intro r
  have hmem : ∀ v, v ∈ c.limits side i ↔
      (a.var.index = i ∧ (r = .eq ∨ r = side)) ∧ v = c.bound / a.factor := by
    intro v
    rw [sided_iff c.relation (ne_zero_of_large hlarge) hside]
    simp [Constraint.limits, Constraint.LimitsFrom, ha, hlarge, and_assoc]
  by_cases hlimits : a.var.index = i ∧ (r = .eq ∨ r = side)
  · exact .inl ⟨hlimits, Set.ext fun v => by simp [hmem, hlimits]⟩
  · exact .inr ⟨hlimits, Set.eq_empty_iff_forall_notMem.mpr fun v hv => hlimits ((hmem v).mp hv).1⟩

end Limits

namespace Bounds

variable {n : ℕ}

-- The bounds are the tightest of those that zero and the constraints set.
structure Tightest (bounds : Bounds ℚ n) (cs : List (Constraint ℚ)) : Prop where
  lower : ∀ j : Fin n, IsGreatest (insert 0 (limitsOf cs .ge j)) (bounds.lower.get j)
  upper : ∀ j : Fin n, IsCeiling (limitsOf cs .le j) (bounds.upper.get j)

-- So they depend on neither the order of the constraints nor on how often one of them occurs.
theorem Tightest.unique {bounds other : Bounds ℚ n} {cs : List (Constraint ℚ)}
    (h : bounds.Tightest cs) (h' : other.Tightest cs) : bounds = other := by
  have hlower : bounds.lower = other.lower :=
    Vector.ext fun j hj => (h.lower ⟨j, hj⟩).unique (h'.lower ⟨j, hj⟩)
  have hupper : bounds.upper = other.upper :=
    Vector.ext fun j hj => (h.upper ⟨j, hj⟩).unique (h'.upper ⟨j, hj⟩)
  cases bounds
  cases other
  exact congrArg₂ Bounds.mk hlower hupper

-- Some bounds leave their variable no value, not even one that misses them by the tolerance.
def Crossed (bounds : Bounds ℚ n) : Prop :=
  ∃ j u, bounds.upper.get j = some u ∧ u + eps < bounds.lower.get j

theorem tightest_initial : (initial : Bounds ℚ n).Tightest [] := by
  refine ⟨fun j => ?_, fun j => ?_⟩
  · simp [initial, limitsOf]
  · simp [initial, limitsOf, IsCeiling]

section Fold

variable {bounds : Bounds ℚ n} {c : Constraint ℚ} {cs : List (Constraint ℚ)}

theorem tightest_narrowed (h : bounds.Tightest cs) (hp : c.isPolynomial = false) :
    (bounds.narrowed c).Tightest (cs ++ [c]) := by
  rcases isConstant_or_large hp with hconst | ⟨a, ha, hlarge⟩
  · rw [narrowed_of_isConstant bounds hconst]
    refine ⟨fun j => ?_, fun j => ?_⟩
    · rw [limitsOf_append, limitsOf_single, Constraint.limits_of_isConstant hconst, Set.union_empty]
      exact h.lower j
    · rw [limitsOf_append, limitsOf_single, Constraint.limits_of_isConstant hconst, Set.union_empty]
      exact h.upper j
  · rw [narrowed_of_large bounds ha hlarge]
    refine ⟨fun j => ?_, fun j => ?_⟩
    · rw [limitsOf_append, limitsOf_single, narrow_lower, ← Set.insert_union]
      rcases Constraint.limits_cases .ge ha hlarge (by decide) j with
        ⟨hlimits, hset⟩ | ⟨hnone, hset⟩
      · rw [if_pos hlimits, hset]
        exact (h.lower j).union isGreatest_singleton
      · rw [if_neg hnone, hset, Set.union_empty]
        exact h.lower j
    · rw [limitsOf_append, limitsOf_single, narrow_upper]
      rcases Constraint.limits_cases .le ha hlarge (by decide) j with
        ⟨hlimits, hset⟩ | ⟨hnone, hset⟩
      · rw [if_pos hlimits, hset]
        exact (h.upper j).insert _
      · rw [if_neg hnone, hset, Set.union_empty]
        exact h.upper j

theorem tightest_foldl_narrowed {ds : List (Constraint ℚ)} (h : bounds.Tightest ds)
    (hp : ∀ c ∈ cs, c.isPolynomial = false) :
    (cs.foldl narrowed bounds).Tightest (ds ++ cs) := by
  induction cs generalizing bounds ds with
  | nil => simpa using h
  | cons c rest ih =>
    have hrest := ih (tightest_narrowed h (hp c List.mem_cons_self)) fun d hd =>
      hp d (List.mem_cons_of_mem _ hd)
    rwa [List.append_assoc, List.singleton_append] at hrest

theorem within_foldl_narrowed (bounds : Bounds ℚ n) (hp : ∀ c ∈ cs, c.isPolynomial = false)
    (hc : ∀ c ∈ cs, ∀ a ∈ c.expression.atoms, a.var.index < n) (t : ℚ) (point : ℕ → ℚ) :
    (cs.foldl narrowed bounds).Within t point ↔
      bounds.Within t point ∧ ∀ c ∈ cs, c.Limits t point := by
  induction cs generalizing bounds with
  | nil => simp
  | cons c rest ih =>
    rw [List.foldl_cons, ih _ (fun d hd => hp d (List.mem_cons_of_mem _ hd))
      (fun d hd => hc d (List.mem_cons_of_mem _ hd)),
      within_narrowed bounds (hp c List.mem_cons_self) (hc c List.mem_cons_self), and_assoc,
      List.forall_mem_cons]

-- Absorbing fails at the first refuted constraint only.
theorem absorb_of_not_refuted (bounds : Bounds ℚ n) (hp : c.isPolynomial = false)
    (h : ¬c.Refuted) : bounds.absorb c = .ok (bounds.narrowed c) := by
  rcases isConstant_or_large hp with hconst | ⟨a, ha, hlarge⟩
  · have hholds : c.relation.HoldsWithin eps 0 c.bound := by
      by_contra hfails
      exact h ⟨hp, hconst, hfails⟩
    rw [absorb_of_isConstant bounds hconst, narrowed_of_isConstant bounds hconst,
      if_pos ((relates_iff _ _ _).mpr hholds)]
  · exact absorb_of_large bounds ha hlarge

theorem absorb_of_refuted (bounds : Bounds ℚ n) (h : c.Refuted) :
    bounds.absorb c = .error (.infeasible (.constantConstraint c)) := by
  rw [absorb_of_isConstant bounds h.constant]
  exact if_neg fun hr => h.fails ((relates_iff _ _ _).mp hr)

theorem foldlM_absorb_of_not_refuted (bounds : Bounds ℚ n)
    (hp : ∀ c ∈ cs, c.isPolynomial = false) (h : ∀ c ∈ cs, ¬c.Refuted) :
    cs.foldlM absorb bounds = .ok (cs.foldl narrowed bounds) := by
  induction cs generalizing bounds with
  | nil => rfl
  | cons c rest ih =>
    rw [List.foldlM_cons, absorb_of_not_refuted bounds (hp c List.mem_cons_self)
      (h c List.mem_cons_self)]
    exact ih _ (fun d hd => hp d (List.mem_cons_of_mem _ hd))
      fun d hd => h d (List.mem_cons_of_mem _ hd)

theorem foldlM_absorb_of_refuted (bounds : Bounds ℚ n)
    (hp : ∀ c ∈ cs, c.isPolynomial = false) (h : ∃ c ∈ cs, c.Refuted) :
    ∃ reason, cs.foldlM absorb bounds = .error (.infeasible reason) := by
  induction cs generalizing bounds with
  | nil => simp at h
  | cons c rest ih =>
    rw [List.foldlM_cons]
    by_cases hc : c.Refuted
    · exact ⟨_, by rw [absorb_of_refuted bounds hc]; rfl⟩
    · rw [absorb_of_not_refuted bounds (hp c List.mem_cons_self) hc]
      obtain ⟨d, hd, hrefuted⟩ := h
      have hrest : d ∈ rest := by
        rcases List.mem_cons.mp hd with rfl | hin
        · exact absurd hrefuted hc
        · exact hin
      exact ih _ (fun e he => hp e (List.mem_cons_of_mem _ he)) ⟨d, hrest, hrefuted⟩

end Fold

section Model

variable {m : Model ℚ}

-- The constraints of the model that are no rows of the tableau, each with its limit.
def tightestOf (m : Model ℚ) : Bounds ℚ m.vars.length :=
  (m.constraints.filter fun c => !c.isPolynomial).foldl narrowed initial

theorem isPolynomial_of_mem_filter (m : Model ℚ) :
    ∀ c ∈ m.constraints.filter fun c => !c.isPolynomial, c.isPolynomial = false :=
  fun c hc => by simpa using (List.mem_filter.mp hc).2

theorem tightestOf_tightest (m : Model ℚ) : (tightestOf m).Tightest m.constraints := by
  have hfold := tightest_foldl_narrowed (tightest_initial (n := m.vars.length))
    (isPolynomial_of_mem_filter m)
  rw [List.nil_append] at hfold
  refine ⟨fun j => ?_, fun j => ?_⟩
  · rw [← limitsOf_filter]
    exact hfold.lower j
  · rw [← limitsOf_filter]
    exact hfold.upper j

theorem crossed_iff (bounds : Bounds ℚ n) :
    bounds.Crossed ↔ ∃ j, bounds.isContradictory j = true := by
  unfold Crossed isContradictory
  refine exists_congr fun j => ?_
  cases bounds.upper.get j <;> simp

theorem ofModel_of_refuted (h : ∃ c ∈ m.constraints, c.Refuted) :
    ∃ reason, ofModel m = .error (.infeasible reason) := by
  obtain ⟨c, hc, hrefuted⟩ := h
  have hmem : c ∈ m.constraints.filter fun c => !c.isPolynomial :=
    List.mem_filter.mpr ⟨hc, by simp [hrefuted.single]⟩
  obtain ⟨reason, hreason⟩ := foldlM_absorb_of_refuted (initial : Bounds ℚ m.vars.length)
    (isPolynomial_of_mem_filter m) ⟨c, hmem, hrefuted⟩
  exact ⟨reason, bind_eq_error.mpr (.inl hreason)⟩

theorem unsettled_of_not_refuted (h : ¬∃ c ∈ m.constraints, c.Refuted) :
    unsettled m = .ok (tightestOf m) :=
  foldlM_absorb_of_not_refuted initial (isPolynomial_of_mem_filter m) fun c hc hr =>
    h ⟨c, (List.mem_filter.mp hc).1, hr⟩

theorem ofModel_of_crossed (h : ¬∃ c ∈ m.constraints, c.Refuted) (hcrossed : (tightestOf m).Crossed) :
    ∃ reason, ofModel m = .error (.infeasible reason) := by
  obtain ⟨j, hj⟩ := (crossed_iff _).mp hcrossed
  have hsome : ((List.finRange m.vars.length).find? (tightestOf m).isContradictory).isSome = true :=
    List.find?_isSome.mpr ⟨j, List.mem_finRange j, hj⟩
  obtain ⟨k, hk⟩ := Option.isSome_iff_exists.mp hsome
  refine ⟨.contradictoryBounds (m.vars.get k) ((tightestOf m).lower.get k)
    (((tightestOf m).upper.get k).getD ((tightestOf m).lower.get k)),
    bind_eq_error.mpr (.inr ⟨tightestOf m, unsettled_of_not_refuted h, ?_⟩)⟩
  rw [hk]
  rfl

theorem ofModel_eq_settle (h : ¬∃ c ∈ m.constraints, c.Refuted) (hcrossed : ¬(tightestOf m).Crossed) :
    ofModel m = .ok (tightestOf m).settle := by
  have hnone : (List.finRange m.vars.length).find? (tightestOf m).isContradictory = none := by
    rw [List.find?_eq_none]
    exact fun j _ hj => hcrossed ((crossed_iff _).mpr ⟨j, hj⟩)
  refine bind_eq_ok.mpr ⟨tightestOf m, unsettled_of_not_refuted h, ?_⟩
  rw [hnone]
  rfl

-- Without tolerance the limit says what the constraint says.
theorem limits_zero_iff {c : Constraint ℚ} (hp : c.isPolynomial = false) (x : List ℚ) :
    (c.Limits 0 fun i => x.getD i 0) ↔
      ∀ a, c.expression.atoms = [a] → eps < |a.factor| → c.Holds x := by
  have hsingle : ∀ a, c.expression.atoms = [a] →
      (c.Holds x ↔ c.relation.HoldsWithin (|a.factor| * 0) (a.factor * x.getD a.var.index 0)
        c.bound) := by
    intro a ha
    have hvalue : c.expression.valueAt (fun i => x.getD i 0) =
        a.factor * x.getD a.var.index 0 := by
      simp [Expression.valueAt, ha]
    rw [mul_zero, Relation.holdsWithin_zero, Constraint.holds_iff_holdsAt, Constraint.HoldsAt,
      hvalue]
  constructor
  · intro h a ha hlarge
    exact (hsingle a ha).mpr (h a (by rw [ha]; exact List.mem_cons_self) hlarge)
  · intro h a ha hlarge
    rcases atoms_of_not_isPolynomial hp with hnil | ⟨b, hb⟩
    · exact absurd (hnil ▸ ha) List.not_mem_nil
    · rw [hb, List.mem_singleton] at ha
      subst ha
      exact (hsingle a hb).mp (h a hb hlarge)

-- A point lies within the tightest bounds if and only if it satisfies what they come from.
theorem tightestOf_admits_iff (hm : m.WellFormed) (x : List ℚ) :
    (∀ j : Fin m.vars.length, (tightestOf m).lower.get j ≤ x.getD j 0 ∧
      ∀ u, (tightestOf m).upper.get j = some u → x.getD j 0 ≤ u) ↔
    (∀ j : Fin m.vars.length, 0 ≤ x.getD j 0) ∧
      ∀ c ∈ m.constraints, ∀ a, c.expression.atoms = [a] → eps < |a.factor| → c.Holds x := by
  have hwithin : (∀ j : Fin m.vars.length, (tightestOf m).lower.get j ≤ x.getD j 0 ∧
      ∀ u, (tightestOf m).upper.get j = some u → x.getD j 0 ≤ u) ↔
      (tightestOf m).Within 0 fun i => x.getD i 0 :=
    ⟨fun h => ⟨fun j => by simpa using (h j).1, fun j u hu => by simpa using (h j).2 u hu⟩,
      fun h j => ⟨by simpa using h.lower j, fun u hu => by simpa using h.upper j u hu⟩⟩
  rw [hwithin, tightestOf, within_foldl_narrowed initial (isPolynomial_of_mem_filter m)
    fun c hc => hm.index_lt (List.mem_filter.mp hc).1, within_initial]
  refine and_congr (by simp) ⟨fun h c hc a ha hlarge => ?_, fun h c hc => ?_⟩
  · have hsingle : c.isPolynomial = false := by
      simp [Constraint.isPolynomial, Expression.size, ha]
    have hmem : c ∈ m.constraints.filter fun c => !c.isPolynomial :=
      List.mem_filter.mpr ⟨hc, by simp [hsingle]⟩
    exact (limits_zero_iff hsingle x).mp (h c hmem) a ha hlarge
  · exact (limits_zero_iff (isPolynomial_of_mem_filter m c hc) x).mpr
      (h c (List.mem_filter.mp hc).1)

-- The bounds do not depend on the order of the constraints, and folding fails for two reasons only.
theorem folded_bounds_tightest (hm : m.WellFormed) :
    ∃ tightest : Bounds ℚ m.vars.length, tightest.Tightest m.constraints ∧
      ((∃ reason, ofModel m = .error (.infeasible reason)) ↔
        (∃ c ∈ m.constraints, c.Refuted) ∨ tightest.Crossed) ∧
      (¬((∃ c ∈ m.constraints, c.Refuted) ∨ tightest.Crossed) →
        ∃ bounds, ofModel m = .ok bounds ∧ ∀ j, bounds.lower.get j = tightest.lower.get j ∧
          bounds.upper.get j =
            (tightest.upper.get j).map fun u => max u (tightest.lower.get j)) ∧
      ∀ x : List ℚ,
        (∀ j : Fin m.vars.length, tightest.lower.get j ≤ x.getD j 0 ∧
          ∀ u, tightest.upper.get j = some u → x.getD j 0 ≤ u) ↔
        (∀ j : Fin m.vars.length, 0 ≤ x.getD j 0) ∧
          ∀ c ∈ m.constraints, ∀ a, c.expression.atoms = [a] → eps < |a.factor| → c.Holds x := by
  have hok : ¬((∃ c ∈ m.constraints, c.Refuted) ∨ (tightestOf m).Crossed) →
      ofModel m = .ok (tightestOf m).settle := fun h =>
    ofModel_eq_settle (fun hr => h (.inl hr)) fun hc => h (.inr hc)
  refine ⟨tightestOf m, tightestOf_tightest m, ⟨fun ⟨reason, herror⟩ => ?_, fun h => ?_⟩,
    fun h => ⟨_, hok h, fun j => ⟨rfl, settle_upper _ j⟩⟩, tightestOf_admits_iff hm⟩
  · by_contra hnot
    rw [hok hnot] at herror
    exact absurd herror (by simp)
  · by_cases hr : ∃ c ∈ m.constraints, c.Refuted
    · exact ofModel_of_refuted hr
    · exact ofModel_of_crossed hr (h.resolve_left hr)

-- The bounds of the first variable cross by less than the tolerance, so the upper one is lifted.
-- The factor of the last constraint counts as none, and its bound counts as zero.
theorem folded_bounds_tightest_of_crossing :
    let v : Variable := ⟨"x", 0⟩
    let w : Variable := ⟨"y", 1⟩
    let m : Model ℚ := {
      vars := [v, w]
      constraints := [⟨⟨[⟨v, -2⟩]⟩, .le, -6, none, none⟩,
        ⟨⟨[⟨v, 1⟩]⟩, .le, 3 - 1 / 2 ^ 31, none, none⟩, ⟨⟨[⟨w, 1⟩]⟩, .ge, -1, none, none⟩,
        ⟨⟨[⟨w, -1⟩]⟩, .ge, -5, none, none⟩,
        ⟨⟨[⟨w, 1 / 2 ^ 31⟩]⟩, .eq, 1 / 2 ^ 31, none, none⟩] }
    m.WellFormed ∧ ∃ tightest bounds : Bounds ℚ 2, tightest.Tightest m.constraints ∧
      tightest.upper.get 0 = some (3 - 1 / 2 ^ 31) ∧ ofModel m = .ok bounds ∧
      bounds.lower.get 0 = 3 ∧ bounds.upper.get 0 = some 3 ∧ bounds.upper.get 1 = some 5 ∧
      ¬∀ c ∈ m.constraints, ∀ a, c.expression.atoms = [a] → eps < |a.factor| → c.Holds [3, 0] := by
  intro v w m
  have hm : m.WellFormed := by decide
  obtain ⟨tightest, htight, hrefused, hok, hadmits⟩ := folded_bounds_tightest hm
  obtain rfl := htight.unique (tightestOf_tightest m)
  have hfine : ¬((∃ c ∈ m.constraints, c.Refuted) ∨ (tightestOf m).Crossed) := by
    intro h
    obtain ⟨reason, herror⟩ := hrefused.mpr h
    obtain ⟨bounds, hbounds⟩ : ∃ bounds, ofModel m = .ok bounds := exists_eq_ok (by decide +kernel)
    rw [hbounds] at herror
    exact absurd herror (by simp)
  obtain ⟨bounds, hbounds, hget⟩ := hok hfine
  have hcrossing : (tightestOf m).upper.get 0 = some (3 - 1 / 2 ^ 31) := by decide +kernel
  refine ⟨hm, tightestOf m, bounds, htight, hcrossing, hbounds,
    (hget 0).1.trans (by decide +kernel), (hget 0).2.trans (by decide +kernel),
    (hget 1).2.trans (by decide +kernel), fun h => ?_⟩
  have hinside := ((hadmits [3, 0]).mpr ⟨by decide, h⟩ 0).2 _ hcrossing
  norm_num at hinside

end Model

end Bounds

end LinearProgram
