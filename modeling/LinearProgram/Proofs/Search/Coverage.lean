import LinearProgram.Proofs.Search.Visits
import LinearProgram.Proofs.Faithful

namespace LinearProgram

-- The objective as a quantity to be made large, zero without one.
def Model.gain (m : Model ℚ) (x : List ℚ) : ℚ :=
  match m.objective with
  | some o => o.gain x
  | none => 0

def Error.isInfeasible : Error ℚ → Bool
  | .infeasible _ => true
  | _ => false

theorem Model.Narrows.gain_eq {root node : Model ℚ} (h : root.Narrows node) (x : List ℚ) :
    node.gain x = root.gain x := by
  obtain ⟨bounds, rfl⟩ := h
  rfl

namespace Search

-- The relaxation is within `tau` of the best point of the node, or shows that it has none.
def Relaxes (relax : Model ℚ → Except (Error ℚ) (Solution ℚ)) (tau : ℚ) (node : Model ℚ) : Prop :=
  match relax node with
  | .ok s => ∀ x, node.Admits x → node.gain x ≤ s.normalizedObjectiveValue + tau
  | .error e => e.isInfeasible = true ∧ ∀ x, ¬node.Admits x

-- The incumbent is worse than the bound by no more than `tau`.
def Covers (tau : ℚ) (incumbent : Option (Solution ℚ)) (bound : ℚ) : Prop :=
  ∃ best, incumbent = some best ∧ bound ≤ best.normalizedObjectiveValue + tau

variable {relax : Model ℚ → Except (Error ℚ) (Solution ℚ)} {tau bound : ℚ} {root node : Model ℚ}
  {search next : Search ℚ} {closed rest : List (Model ℚ)} {incumbent : Option (Solution ℚ)}
  {verdict : Verdict ℚ} {x : List ℚ}

section Step

-- Of an incumbent that changes, the new one is the better.
theorem Covers.settle (h : Covers tau search.incumbent bound)
    (hj : Judged relax search.incumbent node verdict)
    (hs : search.settle node rest verdict = .ok next) : Covers tau next.incumbent bound := by
  cases hj with
  | pruned =>
    obtain rfl := Except.ok.inj hs
    exact h
  | noImprovement =>
    obtain rfl := Except.ok.inj hs
    exact h
  | branch =>
    obtain ⟨_, _, hnext⟩ := bind_eq_ok.mp hs
    obtain rfl := Except.ok.inj hnext
    exact h
  | @improved s _ hb =>
    obtain rfl := Except.ok.inj hs
    obtain ⟨best, hbest, hle⟩ := h
    exact ⟨s, rfl, by linarith [hb best hbest]⟩

-- A node that is closed has no point that is better than the incumbent by more than `tau`.
theorem Relaxes.covers (h : Relaxes relax tau node)
    (hj : Judged relax search.incumbent node verdict)
    (hs : search.settle node rest verdict = .ok next) (hv : verdict.isBranch = false)
    (hx : node.Admits x) : Covers tau next.incumbent (node.gain x) := by
  unfold Relaxes at h
  cases hj with
  | pruned hr =>
    rw [hr] at h
    exact absurd hx (h.2 x)
  | @noImprovement s best hr hb hle =>
    rw [hr] at h
    obtain rfl := Except.ok.inj hs
    exact ⟨best, hb, (h x hx).trans (by linarith)⟩
  | branch => exact absurd hv (by simp [Verdict.isBranch])
  | @improved s hr =>
    rw [hr] at h
    obtain rfl := Except.ok.inj hs
    exact ⟨s, rfl, h x hx⟩

end Step

section Run

theorem Reaches.narrows (h : Reaches relax root closed search) :
    ∀ node ∈ search.pending ++ closed, root.Narrows node :=
  h.forall_nodes (.refl root) fun _ _ _ _ _ hn hsplit _ hp =>
    narrows_of_mem_branches hsplit.branches hn hp

theorem Reaches.exists_admits (h : Reaches relax root closed search) (hm : root.Admits x)
    (hx : Integral x) : ∃ node ∈ search.pending ++ closed, node.Admits x := by
  induction h with
  | start => exact ⟨root, by simp [Search.start], hm⟩
  | @visit closed rest search next node verdict h hp hj hs ih =>
    obtain ⟨other, hmem, hother⟩ := ih
    rw [hp] at hmem
    rcases settle_pending hs with ⟨v, value, parts, rfl, hb, hnext⟩ | ⟨hv, hnext⟩
    · rw [if_pos (by rfl), hnext, List.append_assoc]
      rcases List.mem_cons.mp hmem with rfl | hold
      · obtain ⟨part, hpart, hadmits⟩ := exists_part_admits hb hother hx
        exact ⟨part, List.mem_append_left _ hpart, hadmits⟩
      · exact ⟨other, List.mem_append_right _ hold, hother⟩
    · rw [hv, if_neg (by decide), hnext]
      refine ⟨other, ?_, hother⟩
      simp only [List.cons_append, List.mem_cons, List.mem_append] at hmem ⊢
      tauto

theorem Reaches.covers (hrelax : ∀ node, Visits relax root node → Relaxes relax tau node)
    (h : Reaches relax root closed search) :
    ∀ node ∈ closed, node.Admits x → Covers tau search.incumbent (node.gain x) := by
  induction h with
  | start => exact fun _ hn => absurd hn List.not_mem_nil
  | @visit closed rest search next node verdict h hp hj hs ih =>
    have hjudged := judged_of_judge hj
    have hold : ∀ other ∈ closed, other.Admits x → Covers tau next.incumbent (other.gain x) :=
      fun other ho hx => (ih other ho hx).settle hjudged hs
    cases hv : verdict.isBranch with
    | true => simpa using hold
    | false =>
      have hnode : node.Admits x → Covers tau next.incumbent (node.gain x) :=
        (hrelax node ⟨closed, search, rest, h, hp⟩).covers hjudged hs hv
      simpa using ⟨hnode, hold⟩

end Run

-- At every time each integer point of the root lies in a node that is pending or closed. A search
-- that was not interrupted therefore ends with an incumbent that covers all of them, and one that
-- ends without an incumbent shows that there are none.
theorem integral_points_covered
    (hrelax : ∀ node, Visits relax root node → Relaxes relax tau node) :
    (∀ closed search, Reaches relax root closed search → ∀ x, root.Admits x → Integral x →
      ∃ node ∈ search.pending ++ closed, node.Admits x) ∧
    ∀ allowance outcome, (start root).run relax allowance = .ok outcome →
      outcome.interrupted = false →
      (∀ x, root.Admits x → Integral x → ∃ best, outcome.best = some best ∧
        root.gain x ≤ best.normalizedObjectiveValue + tau) ∧
      (outcome.best = none → ∀ x, root.Admits x → ¬Integral x) := by
  refine ⟨fun closed search h x hm hx => h.exists_admits hm hx,
    fun allowance outcome hrun hend => ?_⟩
  obtain ⟨closed, last, hlast, hempty, hbest⟩ := Reaches.start.run_eq_ok hrun hend
  have hcovers : ∀ x, root.Admits x → Integral x → Covers tau outcome.best (root.gain x) := by
    intro x hm hx
    obtain ⟨node, hmem, hnode⟩ := hlast.exists_admits hm hx
    have hgain := (hlast.narrows node hmem).gain_eq x
    rw [hempty, List.nil_append] at hmem
    rw [hbest, ← hgain]
    exact hlast.covers hrelax node hmem hnode
  refine ⟨hcovers, fun hnone x hm hx => ?_⟩
  obtain ⟨best, hsome, _⟩ := hcovers x hm hx
  exact absurd (hnone.symm.trans hsome) (by simp)

-- The relaxation of the root has its optimum at 3/2, so both branches are visited, and the one
-- above has no point.
theorem integral_points_covered_of_branching :
    let v : Variable := ⟨"x", 0⟩
    let w : Variable := ⟨"y", 1⟩
    let root : Model ℚ := {
      vars := [v, w]
      constraints := [⟨⟨[⟨v, 2⟩, ⟨w, 1⟩]⟩, .le, 3, none, none⟩]
      objective := some ⟨⟨[⟨v, -1⟩]⟩, .minimize⟩ }
    let relax := Solver.solve (α := ℚ) ⟨10⟩
    (∀ node, Visits relax root node → Relaxes relax 0 node) ∧
      root.Admits [1, 1] ∧ Integral [1, 1] ∧
      ∃ outcome, (start root).run relax 10 = .ok outcome ∧
        outcome.interrupted = false ∧ outcome.nodes = 3 ∧
        ∃ best, outcome.best = some best ∧
          root.gain [1, 1] ≤ best.normalizedObjectiveValue + 0 := by
  intro v w root relax
  let below : Model ℚ := { root with constraints := root.constraints ++ [.single v .le 1] }
  let above : Model ℚ := { root with constraints := root.constraints ++ [.single v .ge 2] }
  obtain ⟨s, hs, hcheck⟩ : ∃ s, relax root = .ok s ∧
      decide (s.fractional? = some (v, 3 / 2) ∧ s.normalizedObjectiveValue = 3 / 2) = true :=
    exists_eq_ok_and (by decide +kernel)
  obtain ⟨hsplit, hvalue⟩ := of_decide_eq_true hcheck
  obtain ⟨s₁, hs₁, hcheck₁⟩ : ∃ s, relax below = .ok s ∧
      decide (s.fractional? = none ∧ s.normalizedObjectiveValue = 1) = true :=
    exists_eq_ok_and (by decide +kernel)
  obtain ⟨hwhole₁, hvalue₁⟩ := of_decide_eq_true hcheck₁
  obtain ⟨e, he, hinfeasible⟩ : ∃ e, relax above = .error e ∧ e.isInfeasible = true :=
    exists_eq_error_and (by decide +kernel)
  have hnodes : ∀ node, Visits relax root node → node = root ∨ node = below ∨ node = above := by
    intro node hvisits
    refine hvisits.of_forall_nodes (P := fun node => node = root ∨ node = below ∨ node = above)
      (Or.inl rfl) ?_
    rintro node parts s' v' value (rfl | rfl | rfl) hsplits part hpart
    · obtain rfl := Except.ok.inj (hs.symm.trans hsplits.relaxed)
      obtain ⟨rfl, rfl⟩ := Prod.mk.inj (Option.some.inj (hsplit.symm.trans hsplits.fractional))
      obtain ⟨_, rfl⟩ := branches_eq_ok hsplits.branches
      have hfloor : ⌊(3 / 2 : ℚ)⌋ = 1 := by norm_num
      have hceil : ⌈(3 / 2 : ℚ)⌉ = 2 := by norm_num
      rw [hfloor, hceil] at hpart
      simpa [below, above] using Or.inr hpart
    · obtain rfl := Except.ok.inj (hs₁.symm.trans hsplits.relaxed)
      exact absurd hsplits.fractional (by simp [hwhole₁])
    · exact absurd hsplits.relaxed (by simp [he])
  have hpoint : ∀ x, root.Admits x → ∃ a b, x = [a, b] ∧ 0 ≤ b ∧ 2 * a + b ≤ 3 ∧
      root.gain x = a := by
    intro x hx
    obtain ⟨a, b, rfl⟩ := List.length_eq_two.mp hx.length
    have hrow := hx.holds _ List.mem_cons_self
    refine ⟨a, b, rfl, hx.nonneg b (by simp), ?_, ?_⟩
    · simpa [Constraint.Holds, Relation.Holds, Expression.evaluate_eq_valueAt, Expression.valueAt,
        v, w] using hrow
    · simp [Model.gain, root, Objective.gain, Objective.evaluate, Expression.evaluate_eq_valueAt,
        Expression.valueAt, v]
  have hrelax : ∀ node, Visits relax root node → Relaxes relax 0 node := by
    intro node hvisits
    rcases hnodes node hvisits with rfl | rfl | rfl
    · unfold Relaxes
      rw [hs]
      intro x hx
      obtain ⟨a, b, rfl, hb, hrow, hgain⟩ := hpoint x hx
      rw [hvalue, hgain]
      linarith
    · unfold Relaxes
      rw [hs₁]
      intro x hx
      obtain ⟨a, b, rfl, hb, hrow, hgain⟩ := hpoint x (((Model.Narrows.refl root).push _).admits hx)
      have hle := (single_holds v .le 1 _).mp (hx.holds _ (by simp [below]))
      change a ≤ 1 at hle
      change root.gain _ ≤ _
      rw [hvalue₁, hgain]
      linarith
    · unfold Relaxes
      rw [he]
      refine ⟨hinfeasible, fun x hx => ?_⟩
      obtain ⟨a, b, rfl, hb, hrow, hgain⟩ := hpoint x (((Model.Narrows.refl root).push _).admits hx)
      have hge := (single_holds v .ge 2 _).mp (hx.holds _ (by simp [above]))
      change 2 ≤ a at hge
      linarith
  have hm : root.Admits [1, 1] := ⟨rfl, by simp, by decide +kernel⟩
  have hx : Integral [1, 1] := by
    intro value hvalue
    exact ⟨1, by simpa using hvalue⟩
  obtain ⟨outcome, hrun, hcount⟩ : ∃ outcome, (start root).run relax 10 = .ok outcome ∧
      decide (outcome.interrupted = false ∧ outcome.nodes = 3) = true :=
    exists_eq_ok_and (by decide +kernel)
  obtain ⟨hend, hcount⟩ := of_decide_eq_true hcount
  exact ⟨hrelax, hm, hx, outcome, hrun, hend, hcount,
    ((integral_points_covered hrelax).2 10 outcome hrun hend).1 _ hm hx⟩
end Search

end LinearProgram
