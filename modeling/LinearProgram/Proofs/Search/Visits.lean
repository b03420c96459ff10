import LinearProgram.Proofs.Search.Branches

namespace LinearProgram

def Verdict.isBranch : Verdict ℚ → Bool
  | .branch _ _ => true
  | _ => false

namespace Search

variable (relax : Model ℚ → Except (Error ℚ) (Solution ℚ))

-- What the verdict on a node says about its relaxation.
inductive Judged (incumbent : Option (Solution ℚ)) (node : Model ℚ) : Verdict ℚ → Prop
  | pruned {e : Error ℚ} (hr : relax node = .error e) (he : e.isSolveOutcome = true) :
      Judged incumbent node (.pruned e)
  | noImprovement {s best : Solution ℚ} (hr : relax node = .ok s) (hb : incumbent = some best)
      (hle : s.normalizedObjectiveValue ≤ best.normalizedObjectiveValue) :
      Judged incumbent node (.noImprovement s.normalizedObjectiveValue)
  | branch {s : Solution ℚ} {v : Variable} {value : ℚ} (hr : relax node = .ok s)
      (hf : s.fractional? = some (v, value)) : Judged incumbent node (.branch v value)
  | improved {s : Solution ℚ} (hr : relax node = .ok s)
      (hb : ∀ best, incumbent = some best →
        best.normalizedObjectiveValue < s.normalizedObjectiveValue)
      (hf : s.fractional? = none) : Judged incumbent node (.improved s)

-- The states that a search goes through, each with the nodes that were visited and not branched.
inductive Reaches (root : Model ℚ) : List (Model ℚ) → Search ℚ → Prop
  | start : Reaches root [] (start root)
  | visit {closed rest : List (Model ℚ)} {search next : Search ℚ} {node : Model ℚ}
      {verdict : Verdict ℚ} (h : Reaches root closed search)
      (hp : search.pending = node :: rest)
      (hj : judge relax search.incumbent node = .ok verdict)
      (hs : search.settle node rest verdict = .ok next) :
      Reaches root (if verdict.isBranch then closed else node :: closed) next

-- The node is on top of the stack at some time.
def Visits (root node : Model ℚ) : Prop :=
  ∃ closed search rest, Reaches relax root closed search ∧ search.pending = node :: rest

variable {relax} {root node : Model ℚ} {search next : Search ℚ} {closed rest : List (Model ℚ)}
  {incumbent : Option (Solution ℚ)} {verdict : Verdict ℚ} {e : Error ℚ}

theorem judged_of_judge (h : judge relax incumbent node = .ok verdict) :
    Judged relax incumbent node verdict := by
  unfold judge at h
  split at h
  · rename_i hr
    split_ifs at h with he
    obtain rfl := Except.ok.inj h
    exact .pruned hr he
  · rename_i s hr
    simp only at h
    split_ifs at h with hany
    · obtain rfl := Except.ok.inj h
      obtain ⟨best, hbest, hle⟩ := (Option.any_eq_true _ _).mp hany
      exact .noImprovement hr hbest (of_decide_eq_true hle)
    · split at h
      · rename_i hf
        obtain rfl := Except.ok.inj h
        exact .branch hr hf
      · rename_i hf
        obtain rfl := Except.ok.inj h
        refine .improved hr (fun best hbest => ?_) hf
        rw [hbest] at hany
        simpa using hany

theorem judge_eq_error (h : judge relax incumbent node = .error e) :
    relax node = .error e ∧ e.isSolveOutcome = false := by
  unfold judge at h
  split at h
  · rename_i hr
    split_ifs at h with he
    obtain rfl := Except.error.inj h
    exact ⟨hr, by simpa using he⟩
  · simp only at h
    split_ifs at h
    split at h <;> exact absurd h (by simp)

-- A node that is branched leaves its branches on the stack, and any other node leaves nothing.
theorem settle_pending (h : search.settle node rest verdict = .ok next) :
    (∃ v value parts, verdict = .branch v value ∧ branches node v value = .ok parts ∧
      next.pending = parts ++ rest) ∨ (verdict.isBranch = false ∧ next.pending = rest) := by
  cases verdict with
  | branch v value =>
    obtain ⟨parts, hparts, hnext⟩ := bind_eq_ok.mp h
    obtain rfl := Except.ok.inj hnext
    exact Or.inl ⟨v, value, parts, rfl, hparts, rfl⟩
  | pruned =>
    obtain rfl := Except.ok.inj h
    exact Or.inr ⟨rfl, rfl⟩
  | noImprovement =>
    obtain rfl := Except.ok.inj h
    exact Or.inr ⟨rfl, rfl⟩
  | improved =>
    obtain rfl := Except.ok.inj h
    exact Or.inr ⟨rfl, rfl⟩

theorem settle_nodes (h : search.settle node rest verdict = .ok next) :
    next.nodes = search.nodes + 1 := by
  cases verdict with
  | branch v value =>
    obtain ⟨_, _, hnext⟩ := bind_eq_ok.mp h
    obtain rfl := Except.ok.inj hnext
    rfl
  | pruned | noImprovement | improved =>
    obtain rfl := Except.ok.inj h
    rfl

-- A visit fails on an error that is no outcome, or because the model refuses a branch.
theorem visit_eq_error (h : search.visit relax node rest = .error e) :
    (relax node = .error e ∧ e.isSolveOutcome = false) ∨
      ∃ s v value, relax node = .ok s ∧ s.fractional? = some (v, value) ∧
        branches node v value = .error e := by
  rcases bind_eq_error.mp h with hjudge | ⟨verdict, hjudge, hsettle⟩
  · exact Or.inl (judge_eq_error hjudge)
  · cases judged_of_judge hjudge with
    | pruned => exact absurd hsettle (by simp [settle])
    | noImprovement => exact absurd hsettle (by simp [settle])
    | improved => exact absurd hsettle (by simp [settle])
    | @branch s v value hr hf =>
      rcases bind_eq_error.mp hsettle with hparts | ⟨_, _, hnext⟩
      · exact Or.inr ⟨s, v, value, hr, hf, hparts⟩
      · exact absurd hnext (by simp [pure, Except.pure])

section Run

-- The node is branched at a variable whose value in the relaxation is not integral.
structure Splits (relax : Model ℚ → Except (Error ℚ) (Solution ℚ)) (node : Model ℚ)
    (parts : List (Model ℚ)) (s : Solution ℚ) (v : Variable) (value : ℚ) : Prop where
  relaxed : relax node = .ok s
  fractional : s.fractional? = some (v, value)
  branches : branches node v value = .ok parts

-- What the root has and what branches take over from their node, every node has.
theorem Reaches.forall_nodes {P : Model ℚ → Prop} (h : Reaches relax root closed search)
    (hroot : P root) (hparts : ∀ node parts s v value, P node →
      Splits relax node parts s v value → ∀ part ∈ parts, P part) :
    ∀ node ∈ search.pending ++ closed, P node := by
  induction h with
  | start => simpa [Search.start] using hroot
  | @visit closed rest search next node verdict h hp hj hs ih =>
    rw [hp] at ih
    obtain ⟨hnode, hold⟩ := List.forall_mem_cons.mp ih
    rcases settle_pending hs with ⟨v, value, parts, rfl, hb, hnext⟩ | ⟨hv, hnext⟩
    · rw [if_pos (by rfl), hnext, List.append_assoc]
      cases judged_of_judge hj with
      | branch hr hf =>
        exact List.forall_mem_append.mpr
          ⟨hparts node parts _ v value hnode ⟨hr, hf, hb⟩, hold⟩
    · obtain ⟨hrest, hclosed⟩ := List.forall_mem_append.mp hold
      rw [hv, if_neg (by decide), hnext]
      exact List.forall_mem_append.mpr ⟨hrest, List.forall_mem_cons.mpr ⟨hnode, hclosed⟩⟩

theorem Visits.of_forall_nodes {P : Model ℚ → Prop} (h : Visits relax root node) (hroot : P root)
    (hparts : ∀ node parts s v value, P node →
      Splits relax node parts s v value → ∀ part ∈ parts, P part) : P node := by
  obtain ⟨closed, search, rest, hr, hp⟩ := h
  exact hr.forall_nodes hroot hparts node (by simp [hp])

-- The nodes of a search that branches at its root alone.
theorem Visits.of_leaves {parts : List (Model ℚ)} {s : Solution ℚ} {v : Variable} {value : ℚ}
    (h : Visits relax root node) (hsplit : Splits relax root parts s v value)
    (hleaves : ∀ part ∈ parts, ∀ s, relax part = .ok s → s.fractional? = none) :
    node = root ∨ node ∈ parts := by
  refine h.of_forall_nodes (P := fun node => node = root ∨ node ∈ parts) (Or.inl rfl) ?_
  rintro node parts' s' v' value' (rfl | hmem) hsplit' part hpart
  · obtain rfl := Except.ok.inj (hsplit.relaxed.symm.trans hsplit'.relaxed)
    obtain ⟨rfl, rfl⟩ :=
      Prod.mk.inj (Option.some.inj (hsplit.fractional.symm.trans hsplit'.fractional))
    obtain rfl := Except.ok.inj (hsplit.branches.symm.trans hsplit'.branches)
    exact Or.inr hpart
  · have hwhole := hleaves node hmem s' hsplit'.relaxed
    exact absurd (hsplit'.fractional.symm.trans hwhole) (by simp)

variable {allowance : ℕ} {outcome : SearchOutcome ℚ}

-- A search that ends by itself has nothing left on its stack.
theorem Reaches.run_eq_ok (h : Reaches relax root closed search)
    (hrun : search.run relax allowance = .ok outcome) (hend : outcome.interrupted = false) :
    ∃ closed' last, Reaches relax root closed' last ∧ last.pending = [] ∧
      outcome.best = last.incumbent := by
  induction allowance generalizing search closed with
  | zero =>
    unfold run at hrun
    split at hrun
    · rename_i hp
      obtain rfl := Except.ok.inj hrun
      exact ⟨closed, search, h, hp, rfl⟩
    · obtain rfl := Except.ok.inj hrun
      exact absurd hend (by simp)
  | succ allowance ih =>
    unfold run at hrun
    split at hrun
    · rename_i hp
      obtain rfl := Except.ok.inj hrun
      exact ⟨closed, search, h, hp, rfl⟩
    · rename_i hp
      simp only at hrun
      split at hrun
      · exact absurd hrun (by simp)
      · rename_i next hvisit
        obtain ⟨verdict, hj, hs⟩ := bind_eq_ok.mp hvisit
        exact ih (h.visit hp hj hs) hrun

-- A search that fails does so at one of its nodes.
theorem Reaches.run_eq_error (h : Reaches relax root closed search)
    (hrun : search.run relax allowance = .error e) :
    ∃ node last rest, Visits relax root node ∧ Search.visit relax last node rest = .error e := by
  induction allowance generalizing search closed with
  | zero =>
    unfold run at hrun
    split at hrun <;> exact absurd hrun (by simp)
  | succ allowance ih =>
    unfold run at hrun
    split at hrun
    · exact absurd hrun (by simp)
    · rename_i node rest hp
      simp only at hrun
      split at hrun
      · rename_i e' hvisit
        obtain rfl := Except.error.inj hrun
        exact ⟨node, search, rest, ⟨closed, search, rest, h, hp⟩, hvisit⟩
      · rename_i next hvisit
        obtain ⟨verdict, hj, hs⟩ := bind_eq_ok.mp hvisit
        exact ih (h.visit hp hj hs) hrun

end Run

end Search

end LinearProgram
