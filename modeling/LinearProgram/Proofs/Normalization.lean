import LinearProgram.Proofs.Row
import LinearProgram.Proofs.Integrity

namespace LinearProgram

-- The constraints of the normalized model, when the first new column is `k`. Those with at most one
-- atom stay.
inductive Equalities (lower : List ℚ) :
    ℕ → List (Constraint ℚ) → List (Constraint ℚ) → ℕ → Prop
  | nil (k : ℕ) : Equalities lower k [] [] k
  | single {k l : ℕ} {c : Constraint ℚ} {cs ds : List (Constraint ℚ)}
      (hc : c.isPolynomial = false) (rest : Equalities lower k cs ds l) :
      Equalities lower k (c :: cs) (c :: ds) l
  | row {k l j : ℕ} {c d : Constraint ℚ} {cs ds : List (Constraint ℚ)}
      (hc : c.isPolynomial = true) (hr : RowOf lower k c d j) (rest : Equalities lower j cs ds l) :
      Equalities lower k (c :: cs) (d :: ds) l

namespace Model

section Extends

variable {α : Type}

-- What new variables do to a model.
structure Extends (m w : Model α) : Prop where
  vars : m.vars <+: w.vars
  wellFormed : m.WellFormed → w.WellFormed

theorem Extends.refl (m : Model α) : m.Extends m :=
  ⟨List.prefix_refl _, id⟩

theorem Extends.trans {m v w : Model α} (h : m.Extends v) (h' : v.Extends w) : m.Extends w :=
  ⟨h.vars.trans h'.vars, fun hm => h'.wellFormed (h.wellFormed hm)⟩

theorem createFresh_eq_ok [Scalar α] {m w : Model α} {stem : String} {i : ℕ} {v : Variable}
    (h : m.createFresh stem i = .ok (v, w)) :
    v.index = m.vars.length ∧ w.vars.length = m.vars.length + 1 ∧ m.Extends w := by
  obtain ⟨_, rfl, rfl⟩ := createVariable_eq_ok h
  exact ⟨rfl, by simp, List.prefix_append _ _, fun hm => hm.createVariable h⟩

end Extends

theorem addEquality_eq_ok {m w : Model ℚ} {i : ℕ} {c d : Constraint ℚ} {lower : List ℚ}
    (h : m.addEquality i (c.oriented lower) = .ok (d, w)) :
    RowOf lower m.vars.length c d w.vars.length ∧ m.Extends w := by
  unfold addEquality at h
  split at h
  · rename_i ho
    obtain ⟨⟨v, w₁⟩, hs, hd⟩ := bind_eq_ok.mp h
    obtain ⟨rfl, rfl⟩ := Prod.mk.inj (Except.ok.inj hd)
    obtain ⟨hv, hlen, hext⟩ := createFresh_eq_ok hs
    rw [hlen]
    exact ⟨.slack ho hv, hext⟩
  · rename_i ho
    obtain ⟨⟨v, w₁⟩, hs, hrest⟩ := bind_eq_ok.mp h
    obtain ⟨⟨u, w₂⟩, ha, hd⟩ := bind_eq_ok.mp hrest
    obtain ⟨rfl, rfl⟩ := Prod.mk.inj (Except.ok.inj hd)
    obtain ⟨hv, hlen, hext⟩ := createFresh_eq_ok hs
    obtain ⟨hu, hlen', hext'⟩ := createFresh_eq_ok ha
    rw [hlen', hlen]
    exact ⟨.surplus ho hv (by rw [hu, hlen]), hext.trans hext'⟩
  · rename_i ho
    obtain ⟨⟨u, w₁⟩, ha, hd⟩ := bind_eq_ok.mp h
    obtain ⟨rfl, rfl⟩ := Prod.mk.inj (Except.ok.inj hd)
    obtain ⟨hu, hlen, hext⟩ := createFresh_eq_ok ha
    rw [hlen]
    exact ⟨.equation ho hu, hext⟩

end Model

-- The first constraint is taken over, and the others see the variables that it was given.
theorem equalities_cons_eq_ok_iff {α : Type} [Scalar α] {lower : List α} {i : ℕ}
    {c : Constraint α} {rest ds : List (Constraint α)} {m w : Model α} :
    Normal.equalities lower i (c :: rest) m = .ok (ds, w) ↔ ∃ d v tail,
      (if c.isPolynomial then m.addEquality i (c.oriented lower) else .ok (c, m)) = .ok (d, v) ∧
        Normal.equalities lower (i + 1) rest v = .ok (tail, w) ∧ ds = d :: tail := by
  have hsteps : Normal.equalities lower i (c :: rest) m =
      (if c.isPolynomial then m.addEquality i (c.oriented lower) else .ok (c, m)) >>= fun first =>
        Normal.equalities lower (i + 1) rest first.2 >>= fun next =>
          .ok (first.1 :: next.1, next.2) := by
    rw [Normal.equalities]
    split_ifs <;> rfl
  rw [hsteps, bind_eq_ok]
  constructor
  · rintro ⟨⟨d, v⟩, hfirst, hrest⟩
    obtain ⟨⟨tail, u⟩, htail, he⟩ := bind_eq_ok.mp hrest
    obtain ⟨rfl, rfl⟩ := Prod.mk.inj (Except.ok.inj he)
    exact ⟨d, v, tail, hfirst, htail, rfl⟩
  · rintro ⟨d, v, tail, hfirst, htail, rfl⟩
    exact ⟨(d, v), hfirst, bind_eq_ok.mpr ⟨(tail, w), htail, rfl⟩⟩

theorem equalities_eq_ok {lower : List ℚ} {i : ℕ} {cs ds : List (Constraint ℚ)} {m w : Model ℚ}
    (h : Normal.equalities lower i cs m = .ok (ds, w)) :
    Equalities lower m.vars.length cs ds w.vars.length ∧ m.Extends w := by
  induction cs generalizing i m ds with
  | nil =>
    obtain ⟨rfl, rfl⟩ := Prod.mk.inj (Except.ok.inj h)
    exact ⟨.nil _, .refl _⟩
  | cons c rest ih =>
    obtain ⟨d, v, tail, hd, htail, rfl⟩ := equalities_cons_eq_ok_iff.mp h
    obtain ⟨hds, hext'⟩ := ih htail
    by_cases hc : c.isPolynomial = true
    · rw [if_pos hc] at hd
      obtain ⟨hr, hext⟩ := Model.addEquality_eq_ok hd
      exact ⟨.row hc hr hds, hext.trans hext'⟩
    · rw [if_neg hc] at hd
      obtain ⟨rfl, rfl⟩ := Prod.mk.inj (Except.ok.inj hd)
      exact ⟨.single (by simpa using hc) hds, hext'⟩

namespace Equalities

variable {lower : List ℚ} {k l n : ℕ} {cs ds : List (Constraint ℚ)}

theorem le (h : Equalities lower k cs ds l) : k ≤ l := by
  induction h with
  | nil => exact le_rfl
  | single _ _ ih => exact ih
  | row _ hr _ ih => exact hr.lt.le.trans ih

theorem exists_row (h : Equalities lower k cs ds l) {c : Constraint ℚ} (hc : c ∈ cs)
    (hp : c.isPolynomial = true) :
    ∃ d ∈ ds, ∃ i j, k ≤ i ∧ j ≤ l ∧ RowOf lower i c d j := by
  induction h with
  | nil => exact absurd hc List.not_mem_nil
  | single hs _ ih =>
    rcases List.mem_cons.mp hc with rfl | hm
    · rw [hp] at hs
      exact absurd hs (by decide)
    · obtain ⟨d, hd, hrow⟩ := ih hm
      exact ⟨d, List.mem_cons_of_mem _ hd, hrow⟩
  | row _ hr rest ih =>
    rcases List.mem_cons.mp hc with rfl | hm
    · exact ⟨_, List.mem_cons_self, _, _, le_rfl, rest.le, hr⟩
    · obtain ⟨d, hd, i, j, hi, hj, hrow⟩ := ih hm
      exact ⟨d, List.mem_cons_of_mem _ hd, i, j, hr.lt.le.trans hi, hj, hrow⟩

theorem exists_constraint (h : Equalities lower k cs ds l) {d : Constraint ℚ} (hd : d ∈ ds)
    (hp : d.isPolynomial = true) :
    ∃ c ∈ cs, c.isPolynomial = true ∧ ∃ i j, k ≤ i ∧ j ≤ l ∧ RowOf lower i c d j := by
  induction h with
  | nil => exact absurd hd List.not_mem_nil
  | single hs _ ih =>
    rcases List.mem_cons.mp hd with rfl | hm
    · rw [hp] at hs
      exact absurd hs (by decide)
    · obtain ⟨c, hc, hrow⟩ := ih hm
      exact ⟨c, List.mem_cons_of_mem _ hc, hrow⟩
  | row hc hr rest ih =>
    rcases List.mem_cons.mp hd with rfl | hm
    · exact ⟨_, List.mem_cons_self, hc, _, _, le_rfl, rest.le, hr⟩
    · obtain ⟨c, hc', hp', i, j, hi, hj, hrow⟩ := ih hm
      exact ⟨c, List.mem_cons_of_mem _ hc', hp', i, j, hr.lt.le.trans hi, hj, hrow⟩

theorem index_cases (h : Equalities lower k cs ds l)
    (hc : ∀ c ∈ cs, ∀ a ∈ c.expression.atoms, a.var.index < n) {d : Constraint ℚ} (hd : d ∈ ds)
    (hp : d.isPolynomial = true) :
    ∀ a ∈ d.expression.atoms, a.var.index < n ∨ (k ≤ a.var.index ∧ a.var.index < l) := by
  obtain ⟨c, hcs, _, i, j, hi, hj, hr⟩ := h.exists_constraint hd hp
  intro a ha
  rcases hr.index_cases (hc c hcs) a ha with hlt | ⟨hl, hu⟩
  · exact Or.inl hlt
  · exact Or.inr ⟨hi.trans hl, hu.trans_le hj⟩

theorem coefficient_basic (h : Equalities lower k cs ds l) (hnk : n ≤ k)
    (hc : ∀ c ∈ cs, ∀ a ∈ c.expression.atoms, a.var.index < n) {d : Constraint ℚ} (hd : d ∈ ds)
    (hp : d.isPolynomial = true) {v : Variable} (hv : (d.artificial <|> d.extra) = some v) :
    k ≤ v.index ∧ v.index < l ∧ d.expression.coefficient v.index = 1 := by
  obtain ⟨c, hcs, _, i, j, hi, hj, hr⟩ := h.exists_constraint hd hp
  obtain ⟨hvi, hvj⟩ := hr.basic_index hv
  refine ⟨hi.trans hvi, hvj.trans_le hj, hr.coefficient_basic (fun a ha => ?_) hv⟩
  exact (hc c hcs a ha).trans_le (hnk.trans hi)

-- No row has the basic variable of another one.
theorem pairwise_coefficient_eq_zero (h : Equalities lower k cs ds l) (hnk : n ≤ k)
    (hc : ∀ c ∈ cs, ∀ a ∈ c.expression.atoms, a.var.index < n) :
    (ds.filter Constraint.isPolynomial).Pairwise fun d e => ∀ v w,
      (d.artificial <|> d.extra) = some v → (e.artificial <|> e.extra) = some w →
        d.expression.coefficient w.index = 0 ∧ e.expression.coefficient v.index = 0 := by
  induction h with
  | nil => exact List.Pairwise.nil
  | @single k l c cs ds hs _ ih =>
    rw [List.filter_cons_of_neg (by simp [hs])]
    exact ih hnk fun c' hm => hc c' (List.mem_cons_of_mem _ hm)
  | @row k l j c d cs ds hp hr rest ih =>
    have hkj := hr.lt
    have hcs : ∀ c' ∈ cs, ∀ a ∈ c'.expression.atoms, a.var.index < n :=
      fun c' hm => hc c' (List.mem_cons_of_mem _ hm)
    rw [List.filter_cons_of_pos (hr.isPolynomial hp)]
    refine List.pairwise_cons.mpr ⟨fun e he v w hv hw => ?_, ih (hnk.trans hkj.le) hcs⟩
    obtain ⟨hmem, hpe⟩ := List.mem_filter.mp he
    have hbasic := rest.coefficient_basic (hnk.trans hkj.le) hcs hmem hpe hw
    obtain ⟨hvk, hvj⟩ := hr.basic_index hv
    refine ⟨Expression.coefficient_eq_zero _ fun a ha => ?_,
      Expression.coefficient_eq_zero _ fun a ha => ?_⟩
    · rcases hr.index_cases (hc c List.mem_cons_self) a ha with hlt | hlt <;> omega
    · rcases rest.index_cases hcs hmem hpe a ha with hlt | hlt <;> omega

-- A point that suits every constraint extends to one that gives each row its value. The columns are
-- filled in from left to right, and no row looks at a later one.
theorem exists_completion (h : Equalities lower k cs ds l) (hnk : n ≤ k)
    (hc : ∀ c ∈ cs, ∀ a ∈ c.expression.atoms, a.var.index < n) (target : Constraint ℚ → ℚ)
    {point : ℕ → ℚ}
    (ht : ∀ c ∈ cs, c.isPolynomial = true → ∀ i d j, n ≤ i → RowOf lower i c d j →
      (c.oriented lower).relation.Holds ((c.oriented lower).expression.valueAt point) (target d)) :
    ∃ full : ℕ → ℚ, (∀ j < k, full j = point j) ∧
      (∀ d ∈ ds, d.isPolynomial = true → d.expression.valueAt full = target d ∧
        ∀ v, d.artificial = some v → full v.index = 0) ∧
      ∀ j, k ≤ j → j < l → 0 ≤ full j := by
  induction h generalizing point with
  | nil k => exact ⟨point, fun _ _ => rfl, fun d hd => absurd hd List.not_mem_nil,
      fun j hj hj' => absurd hj (by omega)⟩
  | single hs _ ih =>
    obtain ⟨full, hbelow, hrows, hn⟩ := ih hnk (fun c hm => hc c (List.mem_cons_of_mem _ hm))
      fun c hm => ht c (List.mem_cons_of_mem _ hm)
    refine ⟨full, hbelow, fun d hd hp => ?_, hn⟩
    rcases List.mem_cons.mp hd with rfl | hm
    · rw [hp] at hs
      exact absurd hs (by decide)
    · exact hrows d hm hp
  | @row k l j c d cs ds hp hr rest ih =>
    have hck : ∀ a ∈ c.expression.atoms, a.var.index < k :=
      fun a ha => (hc c List.mem_cons_self a ha).trans_le hnk
    obtain ⟨first, hfirst, hvalue, hart, hpos⟩ :=
      hr.exists_completion hck (ht c List.mem_cons_self hp _ d _ hnk hr)
    have hkj := hr.lt
    have hsame : ∀ c' ∈ cs, (c'.oriented lower).expression.valueAt first =
        (c'.oriented lower).expression.valueAt point := fun c' hm =>
      Expression.valueAt_congr _ fun a ha => hfirst _
        ((index_lt_of_oriented c' lower (hc c' (List.mem_cons_of_mem _ hm)) a ha).trans_le hnk)
    have htfirst : ∀ c' ∈ cs, c'.isPolynomial = true → ∀ i d' j', n ≤ i → RowOf lower i c' d' j' →
        (c'.oriented lower).relation.Holds ((c'.oriented lower).expression.valueAt first)
          (target d') := by
      intro c' hm hp' i d' j' hi hr'
      rw [hsame c' hm]
      exact ht c' (List.mem_cons_of_mem _ hm) hp' i d' j' hi hr'
    obtain ⟨full, hbelow, hrows, hn⟩ := ih (hnk.trans hkj.le)
      (fun c' hm => hc c' (List.mem_cons_of_mem _ hm)) htfirst
    refine ⟨full, fun i hi => (hbelow i (hi.trans hkj)).trans (hfirst i hi), fun d' hd' hp' => ?_,
      fun i hi hi' => ?_⟩
    · rcases List.mem_cons.mp hd' with rfl | hm
      · refine ⟨?_, fun v hv => ?_⟩
        · rw [← hvalue]
          refine Expression.valueAt_congr _ fun a ha => hbelow _ ?_
          rcases hr.index_cases (hc c List.mem_cons_self) a ha with hlt | ⟨_, hlt⟩ <;> omega
        · rw [hbelow _ (hr.artificial_index hv).2]
          exact hart v hv
      · exact hrows d' hm hp'
    · by_cases hij : i < j
      · rw [hbelow i hij]
        exact hpos i hi hij
      · exact hn i (by omega) hi'

-- Two points that give every row the same value agree once they agree on the given columns.
theorem unique (h : Equalities lower k cs ds l) (hnk : n ≤ k)
    (hc : ∀ c ∈ cs, ∀ a ∈ c.expression.atoms, a.var.index < n) {point other : ℕ → ℚ}
    (hbelow : ∀ j < k, point j = other j)
    (hd : ∀ d ∈ ds, d.isPolynomial = true →
      d.expression.valueAt point = d.expression.valueAt other)
    (hp : ∀ d ∈ ds, d.isPolynomial = true → ∀ v, d.artificial = some v → point v.index = 0)
    (ho : ∀ d ∈ ds, d.isPolynomial = true → ∀ v, d.artificial = some v → other v.index = 0) :
    ∀ j < l, point j = other j := by
  induction h with
  | nil => exact hbelow
  | single _ _ ih =>
    exact ih hnk (fun c hm => hc c (List.mem_cons_of_mem _ hm)) hbelow
      (fun d hm => hd d (List.mem_cons_of_mem _ hm)) (fun d hm => hp d (List.mem_cons_of_mem _ hm))
      fun d hm => ho d (List.mem_cons_of_mem _ hm)
  | @row k l j c d cs ds hpoly hr rest ih =>
    have hck : ∀ a ∈ c.expression.atoms, a.var.index < k :=
      fun a ha => (hc c List.mem_cons_self a ha).trans_le hnk
    have hpd := hr.isPolynomial hpoly
    have hrow := hr.unique hck hbelow (hd d List.mem_cons_self hpd)
      (hp d List.mem_cons_self hpd) (ho d List.mem_cons_self hpd)
    exact ih (hnk.trans hr.lt.le) (fun c' hm => hc c' (List.mem_cons_of_mem _ hm)) hrow
      (fun d' hm => hd d' (List.mem_cons_of_mem _ hm))
      (fun d' hm => hp d' (List.mem_cons_of_mem _ hm))
      fun d' hm => ho d' (List.mem_cons_of_mem _ hm)

end Equalities

end LinearProgram
