import LinearProgram.Proofs.Search.Visits
import LinearProgram.Proofs.Solving

namespace LinearProgram

-- A bound that branching adds. It is stored with an integer that is not negative.
def Constraint.IsCut (c : Constraint ℚ) (root : Model ℚ) : Prop :=
  ∃ (v : Variable) (factor : ℚ) (relation : Relation) (k : ℕ), root.owns v = true ∧
    (factor = 1 ∨ factor = -1) ∧ relation ≠ .eq ∧
    c = ⟨⟨[⟨v, factor⟩]⟩, relation, k, none, none⟩

-- The node is the root with bounds that branching has added.
def Model.Descends (root node : Model ℚ) : Prop :=
  ∃ cuts, node = { root with constraints := root.constraints ++ cuts } ∧ ∀ c ∈ cuts, c.IsCut root

-- What an incumbent means for the root.
structure Solution.Belongs (s : Solution ℚ) (root : Model ℚ) : Prop where
  descends : root.Descends s.model
  near : ∀ value ∈ s.givenAssignment, ∃ k : ℤ, |value - k| ≤ integralityEps
  feasible : s.isFeasible = true → root.isFeasible s.assignment = true

-- The incumbents with the latest first.
def Verdict.record (past : List (Solution ℚ)) : Verdict ℚ → List (Solution ℚ)
  | .improved s => s :: past
  | _ => past

section Descent

variable {root node part : Model ℚ} {v : Variable} {relation : Relation} {value : ℚ}
  {parts : List (Model ℚ)} {x : List ℚ}

-- A negative bound turns its constraint around.
theorem isCut_single (hv : root.owns v = true) (hr : relation ≠ .eq) (k : ℤ) :
    (Constraint.single v relation k).IsCut root := by
  rw [single_eq]
  split_ifs with hk
  · have hneg : k < 0 := Int.cast_lt_zero.mp hk
    refine ⟨v, -1, relation.reversed, k.natAbs, hv, Or.inr rfl, ?_, ?_⟩
    · cases relation <;> simp_all [Relation.reversed]
    · have habs : -(k : ℚ) = (k.natAbs : ℚ) := by
        rw [Nat.cast_natAbs, abs_of_neg hneg, Int.cast_neg]
      rw [habs]
  · have hpos : 0 ≤ k := by exact_mod_cast not_lt.mp hk
    refine ⟨v, 1, relation, k.natAbs, hv, Or.inl rfl, hr, ?_⟩
    rw [Nat.cast_natAbs, abs_of_nonneg hpos]

theorem Model.Descends.refl (root : Model ℚ) : root.Descends root :=
  ⟨[], by simp, by simp⟩

theorem Model.Descends.push (h : root.Descends node) {c : Constraint ℚ} (hc : c.IsCut root) :
    root.Descends { node with constraints := node.constraints ++ [c] } := by
  obtain ⟨cuts, rfl, hcuts⟩ := h
  refine ⟨cuts ++ [c], by simp, ?_⟩
  exact List.forall_mem_append.mpr ⟨hcuts, List.forall_mem_singleton.mpr hc⟩

theorem Model.Descends.of_mem_branches (h : root.Descends node)
    (hb : Search.branches node v value = .ok parts) (hp : part ∈ parts) : root.Descends part := by
  obtain ⟨howns, rfl⟩ := Search.branches_eq_ok hb
  have hv : root.owns v = true := by
    obtain ⟨cuts, rfl, _⟩ := h
    exact howns
  rcases List.mem_cons.mp hp with rfl | hp
  · exact h.push (isCut_single hv (by decide) _)
  · rw [List.mem_singleton.mp hp]
    exact h.push (isCut_single hv (by decide) _)

-- The root asks for less than the node does.
theorem Model.Descends.isFeasible (h : root.Descends node) (hx : node.isFeasible x = true) :
    root.isFeasible x = true := by
  obtain ⟨cuts, rfl, _⟩ := h
  unfold Model.isFeasible at hx ⊢
  simp only [Bool.and_eq_true, List.all_append] at hx ⊢
  exact ⟨hx.1, hx.2.1⟩

end Descent

namespace Search

variable (relax : Model ℚ → Except (Error ℚ) (Solution ℚ))

-- The states of a search with the nodes visited and the incumbents so far, both latest first.
inductive History (root : Model ℚ) : List (Model ℚ) → List (Solution ℚ) → Search ℚ → Prop
  | start : History root [] [] (start root)
  | visit {visited rest : List (Model ℚ)} {past : List (Solution ℚ)} {search next : Search ℚ}
      {node : Model ℚ} {verdict : Verdict ℚ} (h : History root visited past search)
      (hp : search.pending = node :: rest)
      (hj : judge relax search.incumbent node = .ok verdict)
      (hs : search.settle node rest verdict = .ok next) :
      History root (node :: visited) (verdict.record past) next

variable {relax} {root node : Model ℚ} {search next : Search ℚ} {visited rest : List (Model ℚ)}
  {past : List (Solution ℚ)} {verdict : Verdict ℚ}

theorem settle_incumbent (h : search.settle node rest verdict = .ok next)
    (hpast : search.incumbent = past.head?) : next.incumbent = (verdict.record past).head? := by
  cases verdict with
  | branch v value =>
    obtain ⟨_, _, hnext⟩ := bind_eq_ok.mp h
    obtain rfl := Except.ok.inj hnext
    exact hpast
  | improved s =>
    obtain rfl := Except.ok.inj h
    rfl
  | pruned | noImprovement =>
    obtain rfl := Except.ok.inj h
    exact hpast

section Run

theorem History.reaches (h : History relax root visited past search) :
    (∃ closed, Reaches relax root closed search) ∧ ∀ node ∈ visited, Visits relax root node := by
  induction h with
  | start => exact ⟨⟨[], .start⟩, by simp⟩
  | visit _ hp hj hs ih =>
    obtain ⟨⟨closed, h⟩, hvisited⟩ := ih
    exact ⟨⟨_, h.visit hp hj hs⟩,
      List.forall_mem_cons.mpr ⟨⟨closed, _, _, h, hp⟩, hvisited⟩⟩

theorem History.descends (h : History relax root visited past search) :
    ∀ node ∈ search.pending ++ visited, root.Descends node := by
  obtain ⟨⟨closed, hreaches⟩, hvisited⟩ := h.reaches
  have hparts : ∀ node parts s v value, root.Descends node →
      Splits relax node parts s v value → ∀ part ∈ parts, root.Descends part :=
    fun _ _ _ _ _ hnode hsplit _ hp => hnode.of_mem_branches hsplit.branches hp
  refine List.forall_mem_append.mpr ⟨?_, fun node hnode => ?_⟩
  · exact (List.forall_mem_append.mp (hreaches.forall_nodes (.refl root) hparts)).1
  · exact (hvisited node hnode).of_forall_nodes (.refl root) hparts

theorem History.incumbent_eq (h : History relax root visited past search) :
    search.incumbent = past.head? ∧ search.nodes = visited.length := by
  induction h with
  | start => exact ⟨rfl, rfl⟩
  | visit _ _ _ hs ih =>
    refine ⟨settle_incumbent hs ih.1, ?_⟩
    rw [settle_nodes hs, ih.2, List.length_cons]

-- An incumbent is replaced by a better one alone.
theorem History.increasing (h : History relax root visited past search) :
    past.Pairwise fun later earlier =>
      earlier.normalizedObjectiveValue < later.normalizedObjectiveValue := by
  induction h with
  | start => exact List.Pairwise.nil
  | @visit visited rest past search next node verdict h hp hj hs ih =>
    cases judged_of_judge hj with
    | @improved s hr hb hf =>
      rw [h.incumbent_eq.1] at hb
      refine List.pairwise_cons.mpr ⟨fun earlier hmem => ?_, ih⟩
      cases past with
      | nil => exact absurd hmem List.not_mem_nil
      | cons best older =>
        have hbest := hb best rfl
        rcases List.mem_cons.mp hmem with rfl | hmem
        · exact hbest
        · exact ((List.pairwise_cons.mp ih).1 earlier hmem).trans hbest
    | _ => exact ih

theorem History.accepted (h : History relax root visited past search) :
    ∀ s ∈ past, s.fractional? = none ∧ ∃ node ∈ visited, relax node = .ok s := by
  induction h with
  | start => simp
  | @visit visited rest past search next node verdict h hp hj hs ih =>
    have hold : ∀ s ∈ past, s.fractional? = none ∧
        ∃ other ∈ node :: visited, relax other = .ok s := by
      intro s hmem
      obtain ⟨hf, other, hother, hr⟩ := ih s hmem
      exact ⟨hf, other, List.mem_cons_of_mem _ hother, hr⟩
    cases judged_of_judge hj with
    | @improved s hr hb hf =>
      exact List.forall_mem_cons.mpr ⟨⟨hf, node, List.mem_cons_self, hr⟩, hold⟩
    | _ => exact hold

theorem History.belongs (h : History relax root visited past search)
    (hrelax : ∀ node s, Visits relax root node → relax node = .ok s → s.model = node) :
    ∀ s ∈ past, s.model ∈ visited ∧ s.Belongs root := by
  intro s hmem
  obtain ⟨hf, node, hnode, hr⟩ := h.accepted s hmem
  have hmodel := hrelax node s (h.reaches.2 node hnode) hr
  have hdescends := h.descends node (List.mem_append_right _ hnode)
  subst hmodel
  exact ⟨hnode, hdescends, near_of_fractional?_eq_none hf, hdescends.isFeasible⟩

variable {allowance : ℕ} {outcome : SearchOutcome ℚ}

-- A search that gives an outcome, interrupted or not, stops at one of its states.
theorem History.run_eq_ok (h : History relax root visited past search)
    (hrun : search.run relax allowance = .ok outcome) :
    ∃ visited' past' last, History relax root visited' past' last ∧
      outcome.best = last.incumbent ∧ outcome.nodes = last.nodes := by
  induction allowance generalizing search visited past with
  | zero =>
    unfold run at hrun
    split at hrun <;>
    · obtain rfl := Except.ok.inj hrun
      exact ⟨visited, past, search, h, rfl, rfl⟩
  | succ allowance ih =>
    unfold run at hrun
    split at hrun
    · obtain rfl := Except.ok.inj hrun
      exact ⟨visited, past, search, h, rfl, rfl⟩
    · rename_i hp
      simp only at hrun
      split at hrun
      · exact absurd hrun (by simp)
      · rename_i next hvisit
        obtain ⟨verdict, hj, hs⟩ := bind_eq_ok.mp hvisit
        exact ih (h.visit hp hj hs) hrun

end Run

-- The hypothesis on the relaxation is that a solution is one of the model it was asked to solve.
theorem incumbents_belong_to_root
    (hrelax : ∀ node s, Visits relax root node → relax node = .ok s → s.model = node) :
    (∀ visited past search, History relax root visited past search →
      (∀ node ∈ search.pending ++ visited, root.Descends node) ∧
      search.incumbent = past.head? ∧
      (past.Pairwise fun later earlier =>
        earlier.normalizedObjectiveValue < later.normalizedObjectiveValue) ∧
      ∀ s ∈ past, s.model ∈ visited ∧ s.Belongs root) ∧
    ∀ allowance outcome, (start root).run relax allowance = .ok outcome →
      ∃ visited past last, History relax root visited past last ∧
        outcome.nodes = visited.length ∧ outcome.best = past.head? ∧
        ∀ best, outcome.best = some best → best.Belongs root := by
  refine ⟨fun visited past search h =>
    ⟨h.descends, h.incumbent_eq.1, h.increasing, h.belongs hrelax⟩,
    fun allowance outcome hrun => ?_⟩
  obtain ⟨visited, past, last, h, hbest, hnodes⟩ := History.start.run_eq_ok hrun
  obtain ⟨hincumbent, hcount⟩ := h.incumbent_eq
  rw [hincumbent] at hbest
  refine ⟨visited, past, last, h, hnodes.trans hcount, hbest, fun best hsome => ?_⟩
  rw [hsome] at hbest
  exact (h.belongs hrelax best (List.mem_of_head? hbest.symm)).2

-- Both branches have a solution in whole numbers, and the one above replaces the one below.
theorem incumbents_belong_to_root_of_branching :
    let v : Variable := ⟨"x", 0⟩
    let w : Variable := ⟨"y", 1⟩
    let root : Model ℚ := {
      vars := [v, w]
      constraints := [⟨⟨[⟨w, 1⟩, ⟨v, -2⟩]⟩, .le, 0, none, none⟩,
        ⟨⟨[⟨v, 1⟩, ⟨w, 1⟩]⟩, .le, 5, none, none⟩]
      objective := some ⟨⟨[⟨w, 1⟩]⟩, .maximize⟩ }
    let relax := Solver.solve (α := ℚ) ⟨10⟩
    (∀ node s, Visits relax root node → relax node = .ok s → s.model = node) ∧
      ∃ outcome best, (start root).run relax 10 = .ok outcome ∧ outcome.nodes = 3 ∧
        outcome.best = some best ∧ best.normalizedObjectiveValue = 3 ∧ best.Belongs root ∧
        root.isFeasible best.assignment = true := by
  intro v w root relax
  have hrelax : ∀ node s, Visits relax root node → relax node = .ok s → s.model = node :=
    fun _ _ _ hs => (solve_eq_ok hs).1
  obtain ⟨outcome, hrun, hcheck⟩ : ∃ outcome, (start root).run relax 10 = .ok outcome ∧
      (decide (outcome.nodes = 3) && outcome.best.any fun best =>
        decide (best.normalizedObjectiveValue = 3) && best.isFeasible) = true :=
    exists_eq_ok_and (by decide +kernel)
  obtain ⟨hnodes, hbest⟩ := Bool.and_eq_true_iff.mp hcheck
  obtain ⟨best, hsome, hbest⟩ := (Option.any_eq_true _ _).mp hbest
  obtain ⟨hvalue, hfeasible⟩ := Bool.and_eq_true_iff.mp hbest
  obtain ⟨_, _, _, _, _, _, hbelongs⟩ := (incumbents_belong_to_root hrelax).2 10 outcome hrun
  exact ⟨hrelax, outcome, best, hrun, of_decide_eq_true hnodes, hsome, of_decide_eq_true hvalue,
    hbelongs best hsome, (hbelongs best hsome).feasible hfeasible⟩

end Search

end LinearProgram
