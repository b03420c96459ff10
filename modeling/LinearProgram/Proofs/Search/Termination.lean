import LinearProgram.Proofs.Search.Boxes
import LinearProgram.Proofs.Search.Visits
import LinearProgram.Proofs.Solving

namespace LinearProgram

-- The size of a binary tree that is as deep as the model has gaps to branch in.
def Model.treeSize (m : Model ℚ) : ℕ :=
  2 ^ (m.cuts + 1) - 1

theorem Model.treeSize_pos (m : Model ℚ) : 0 < m.treeSize := by
  unfold treeSize
  have hone : 1 < 2 ^ (m.cuts + 1) := Nat.one_lt_two_pow (Nat.succ_ne_zero _)
  omega

theorem Model.treeSize_add_lt {m below above : Model ℚ} (hbelow : below.cuts < m.cuts)
    (habove : above.cuts < m.cuts) : below.treeSize + above.treeSize < m.treeSize := by
  have hpow : ∀ k < m.cuts, 2 ^ (k + 1) ≤ 2 ^ m.cuts := fun k hk =>
    Nat.pow_le_pow_right (by decide) hk
  have hfirst := hpow _ hbelow
  have hsecond := hpow _ habove
  have hpos : 0 < 2 ^ (below.cuts + 1) := Nat.two_pow_pos _
  have htop : 2 ^ (m.cuts + 1) = 2 * 2 ^ m.cuts := Nat.pow_succ'
  unfold treeSize
  omega

-- The values of the caller's variables may miss their bounds by the margin.
def Solution.KeepsTo {n : ℕ} (s : Solution ℚ) (folded : Bounds ℚ n) : Prop :=
  ∀ j : Fin n, ∀ value ∈ s.givenAssignment[j.val]?,
    folded.lower.get j - margin ≤ value ∧ ∀ u ∈ folded.upper.get j, value ≤ u + margin

instance {n : ℕ} (s : Solution ℚ) (folded : Bounds ℚ n) : Decidable (s.KeepsTo folded) :=
  inferInstanceAs (Decidable (∀ j : Fin n, ∀ value ∈ s.givenAssignment[j.val]?,
    folded.lower.get j - margin ≤ value ∧ ∀ u ∈ folded.upper.get j, value ≤ u + margin))

namespace Search

variable {relax : Model ℚ → Except (Error ℚ) (Solution ℚ)} {root node : Model ℚ}
  {search next : Search ℚ} {closed rest : List (Model ℚ)} {parts : List (Model ℚ)}
  {s : Solution ℚ} {v : Variable} {value : ℚ} {verdict : Verdict ℚ}

-- A solution of the relaxation is one of its node, and its values keep to the folded bounds of the
-- node.
def KeepsBounds (relax : Model ℚ → Except (Error ℚ) (Solution ℚ)) (node : Model ℚ) : Prop :=
  ∀ s, relax node = .ok s → s.model = node ∧
    ∃ folded, Bounds.ofModel node.simplify = .ok folded ∧ s.KeepsTo folded

-- One turn of the loop.
def Steps (relax : Model ℚ → Except (Error ℚ) (Solution ℚ)) (search next : Search ℚ) : Prop :=
  ∃ node rest, search.pending = node :: rest ∧ search.visit relax node rest = .ok next

-- What was visited, and the largest trees that may still hang below what is pending.
def potential (search : Search ℚ) : ℕ :=
  search.nodes + (search.pending.map Model.treeSize).sum

theorem nodes_add_length_le_potential (search : Search ℚ) :
    search.nodes + search.pending.length ≤ search.potential := by
  have hsum := List.card_nsmul_le_sum (search.pending.map Model.treeSize) 1 (by
    intro size hsize
    obtain ⟨m, _, rfl⟩ := List.mem_map.mp hsize
    exact m.treeSize_pos)
  rw [List.length_map, smul_eq_mul, mul_one] at hsum
  exact Nat.add_le_add_left hsum _

theorem KeepsBounds.exists_raw (hkeeps : KeepsBounds relax node) (hm : node.WellFormed)
    (hbox : node.Boxed) (hsplit : Splits relax node parts s v value) :
    ∃ (raw : Bounds ℚ node.vars.length) (i : Fin node.vars.length) (u : ℚ),
      Bounds.unsettled node.simplify = .ok raw ∧ node.cuts = raw.settle.cuts ∧ i.val = v.index ∧
      raw.upper.get i = some u ∧ raw.lower.get i - margin ≤ value ∧
      value ≤ max u (raw.lower.get i) + margin := by
  obtain ⟨hs, folded, hfolded, hwithin⟩ := hkeeps s hsplit.relaxed
  obtain ⟨howns, hvalue, _⟩ := fractional?_eq_some hm hs hsplit.fractional
  obtain ⟨raw, hraw, rfl, _⟩ := Bounds.ofModel_eq_ok hfolded
  let i : Fin node.vars.length := ⟨v.index, Model.index_lt_of_owns howns⟩
  obtain ⟨u, hu⟩ := Option.ne_none_iff_exists'.mp (hbox raw hraw i)
  obtain ⟨hlower, hupper⟩ := hwithin i value hvalue
  refine ⟨raw, i, u, hraw, Model.cuts_eq hfolded, rfl, hu, hlower, hupper _ ?_⟩
  exact (Bounds.settle_upper raw i).trans (congrArg _ hu)

theorem KeepsBounds.cuts_lt (hkeeps : KeepsBounds relax node) (hm : node.WellFormed)
    (hbox : node.Boxed) (hsplit : Splits relax node parts s v value) :
    ∀ part ∈ parts, part.cuts < node.cuts := by
  obtain ⟨hs, _⟩ := hkeeps s hsplit.relaxed
  obtain ⟨_, _, hx⟩ := fractional?_eq_some hm hs hsplit.fractional
  obtain ⟨raw, i, u, hraw, hcuts, hi, hu, hlower, hupper⟩ := hkeeps.exists_raw hm hbox hsplit
  have hceil := Bounds.cuts_narrow_ceil_lt hx hu hlower hupper
  have hpos : 0 < raw.settle.cuts := Nat.zero_lt_of_lt hceil
  obtain ⟨_, rfl⟩ := branches_eq_ok hsplit.branches
  rw [hcuts]
  intro part hp
  rcases List.mem_cons.mp hp with rfl | hp
  · exact Model.cuts_push_lt hraw hi hpos (Bounds.cuts_narrow_floor_lt hx hu hlower hupper)
  · rw [List.mem_singleton.mp hp]
    exact Model.cuts_push_lt hraw hi hpos fun _ => hceil

section Bounded

variable (hroot : root.WellFormed) (hbox : root.Boxed)
  (hrelax : ∀ node, Visits relax root node → KeepsBounds relax node)

include hroot hbox

theorem Visits.boxed (h : Visits relax root node) : node.WellFormed ∧ node.Boxed := by
  refine h.of_forall_nodes (P := fun node => node.WellFormed ∧ node.Boxed) ⟨hroot, hbox⟩ ?_
  rintro node parts s v value ⟨hw, hb⟩ hsplit part hp
  exact ⟨wellFormed_of_mem_branches hsplit.branches hw hp, hb.of_mem_branches hsplit.branches hp⟩

include hrelax

-- A visit counts one node and puts smaller trees in its place.
theorem Reaches.potential_le (h : Reaches relax root closed search) :
    search.potential ≤ root.treeSize := by
  induction h with
  | start => simp [potential, Search.start]
  | @visit closed rest search next node verdict h hp hj hs ih =>
    have hvisits : Visits relax root node := ⟨closed, search, rest, h, hp⟩
    obtain ⟨hw, hb⟩ := hvisits.boxed hroot hbox
    refine le_trans ?_ ih
    unfold potential
    rw [settle_nodes hs, hp, List.map_cons, List.sum_cons]
    rcases settle_pending hs with ⟨v, value, parts, rfl, hparts, hnext⟩ | ⟨_, hnext⟩
    · cases judged_of_judge hj with
      | branch hr hf =>
        have hcuts := (hrelax node hvisits).cuts_lt hw hb ⟨hr, hf, hparts⟩
        obtain ⟨_, rfl⟩ := branches_eq_ok hparts
        have htree := Model.treeSize_add_lt (hcuts _ List.mem_cons_self)
          (hcuts _ (List.mem_cons_of_mem _ List.mem_cons_self))
        rw [hnext]
        simp only [List.cons_append, List.nil_append, List.map_cons, List.sum_cons]
        omega
    · have hpos := node.treeSize_pos
      rw [hnext]
      omega

-- Every state counts at least itself, so the size of the largest tree limits the search.
theorem Reaches.nodes_add_length_le (h : Reaches relax root closed search) :
    search.nodes + search.pending.length ≤ root.treeSize :=
  search.nodes_add_length_le_potential.trans (h.potential_le hroot hbox hrelax)

end Bounded

section Run

variable {limit allowance : ℕ} {e : Error ℚ}

-- A search with room for every state that it can reach empties its stack or fails.
theorem Reaches.run_ends (hlimit : ∀ closed search, Reaches relax root closed search →
      search.nodes + search.pending.length ≤ limit)
    (h : Reaches relax root closed search) (hroom : limit ≤ search.nodes + allowance) :
    (∃ closed last, Reaches relax root closed last ∧ last.pending = [] ∧
        search.run relax allowance = .ok ⟨last.incumbent, false, last.nodes⟩) ∨
      ∃ e, search.run relax allowance = .error e := by
  induction allowance generalizing search closed with
  | zero =>
    have hsize := hlimit closed search h
    have hp : search.pending = [] := List.length_eq_zero_iff.mp (by omega)
    refine Or.inl ⟨closed, search, h, hp, ?_⟩
    unfold run
    rw [hp]
  | succ allowance ih =>
    cases hp : search.pending with
    | nil =>
      refine Or.inl ⟨closed, search, h, hp, ?_⟩
      unfold run
      rw [hp]
    | cons node rest =>
      cases hvisit : search.visit relax node rest with
      | error e =>
        refine Or.inr ⟨e, ?_⟩
        unfold run
        rw [hp]
        simp only
        rw [hvisit]
      | ok next =>
        obtain ⟨verdict, hj, hs⟩ := bind_eq_ok.mp hvisit
        have hnext := ih (h.visit hp hj hs) (by
          have hnodes := settle_nodes hs
          omega)
        have hrun : search.run relax (allowance + 1) = next.run relax allowance := by
          rw [run, hp]
          simp only
          rw [hvisit]
        rwa [hrun]

-- The turns of the loop go through the states that the search reaches, and each one counts a node.
theorem reaches_of_steps {states : ℕ → Search ℚ} (hstart : states 0 = start root)
    (hsteps : ∀ k, Steps relax (states k) (states (k + 1))) (k : ℕ) :
    (∃ closed, Reaches relax root closed (states k)) ∧ (states k).nodes = k := by
  induction k with
  | zero =>
    rw [hstart]
    exact ⟨⟨[], .start⟩, rfl⟩
  | succ k ih =>
    obtain ⟨⟨closed, h⟩, hnodes⟩ := ih
    obtain ⟨node, rest, hp, hvisit⟩ := hsteps k
    obtain ⟨verdict, hj, hs⟩ := bind_eq_ok.mp hvisit
    exact ⟨⟨_, h.visit hp hj hs⟩, by rw [settle_nodes hs, hnodes]⟩

end Run

-- Whatever the relaxation does inside the boxes, the search visits no more nodes than the box of
-- the root allows for. It ends with an empty stack, unless the relaxation of a node fails.
theorem bounded_search_ends (hroot : root.WellFormed) {box : Bounds ℚ root.vars.length}
    (hbox : Bounds.ofModel root.simplify = .ok box) (hfinite : ∀ j, box.upper.get j ≠ none)
    (hrelax : ∀ node, Visits relax root node → KeepsBounds relax node) :
    (∀ closed search, Reaches relax root closed search →
      search.nodes + search.pending.length ≤ 2 ^ (box.cuts + 1) - 1) ∧
    (∀ allowance, 2 ^ (box.cuts + 1) - 1 ≤ allowance →
      (∃ closed last, Reaches relax root closed last ∧ last.pending = [] ∧
        (start root).run relax allowance = .ok ⟨last.incumbent, false, last.nodes⟩) ∨
      ∃ node e, Visits relax root node ∧ relax node = .error e ∧ e.isSolveOutcome = false ∧
        (start root).run relax allowance = .error e) ∧
    ¬∃ states : ℕ → Search ℚ,
      states 0 = start root ∧ ∀ k, Steps relax (states k) (states (k + 1)) := by
  have hboxed := Model.boxed_of_ofModel hbox hfinite
  have hlimit : ∀ closed search, Reaches relax root closed search →
      search.nodes + search.pending.length ≤ 2 ^ (box.cuts + 1) - 1 := by
    intro closed search h
    rw [← Model.cuts_eq hbox]
    exact h.nodes_add_length_le hroot hboxed hrelax
  refine ⟨hlimit, fun allowance hroom => ?_, ?_⟩
  · refine (Reaches.start.run_ends hlimit (by omega)).imp_right fun ⟨e, hrun⟩ => ?_
    obtain ⟨node, last, rest, hvisits, hvisit⟩ := Reaches.start.run_eq_error hrun
    rcases visit_eq_error hvisit with ⟨he, hno⟩ | ⟨s, v, value, hs, hf, hbranches⟩
    · exact ⟨node, e, hvisits, he, hno, hrun⟩
    · obtain ⟨hw, _⟩ := hvisits.boxed hroot hboxed
      obtain ⟨howns, _⟩ := fractional?_eq_some hw (hrelax node hvisits s hs).1 hf
      obtain ⟨parts, hparts⟩ := exists_branches howns value
      exact absurd (hparts.symm.trans hbranches) (by simp)
  · rintro ⟨states, hstart, hsteps⟩
    obtain ⟨⟨closed, h⟩, hnodes⟩ := reaches_of_steps hstart hsteps (2 ^ (box.cuts + 1))
    have hsize := hlimit closed _ h
    have hpos : 0 < 2 ^ (box.cuts + 1) := Nat.two_pow_pos _
    omega

-- The box of the root has four gaps, and three of them are below the bound 5/2. Its relaxation has
-- the optimum 3/2, and the branch above has no point.
theorem bounded_search_ends_of_branching :
    let v : Variable := ⟨"x", 0⟩
    let w : Variable := ⟨"y", 1⟩
    let root : Model ℚ := {
      vars := [v, w]
      constraints := [⟨⟨[⟨v, 2⟩, ⟨w, 1⟩]⟩, .le, 3, none, none⟩,
        ⟨⟨[⟨v, 1⟩]⟩, .le, 5 / 2, none, none⟩, ⟨⟨[⟨w, 2⟩]⟩, .le, 1, none, none⟩]
      objective := some ⟨⟨[⟨v, 1⟩]⟩, .maximize⟩ }
    let relax := Solver.solve (α := ℚ) ⟨10⟩
    root.WellFormed ∧ (∀ node, Visits relax root node → KeepsBounds relax node) ∧
      ∃ closed last, Reaches relax root closed last ∧ last.pending = [] ∧
        (start root).run relax 31 = .ok ⟨last.incumbent, false, 3⟩ := by
  intro v w root relax
  let below : Model ℚ := { root with constraints := root.constraints ++ [.single v .le 1] }
  let above : Model ℚ := { root with constraints := root.constraints ++ [.single v .ge 2] }
  have hroot : root.WellFormed := by decide
  obtain ⟨box, hbox, hcheck⟩ : ∃ box : Bounds ℚ root.vars.length,
      Bounds.ofModel root.simplify = .ok box ∧
        decide ((∀ j, box.upper.get j ≠ none) ∧ box.cuts = 4) = true :=
    exists_eq_ok_and (by decide +kernel)
  obtain ⟨hfinite, hcuts⟩ := of_decide_eq_true hcheck
  obtain ⟨s, hs, hcheck⟩ : ∃ s, relax root = .ok s ∧
      (decide (s.fractional? = some (v, 3 / 2)) &&
        (Bounds.ofModel root.simplify).toOption.any fun folded => decide (s.KeepsTo folded)) =
          true := exists_eq_ok_and (by decide +kernel)
  obtain ⟨hfractional, hkeeps⟩ := Bool.and_eq_true_iff.mp hcheck
  obtain ⟨s₁, hs₁, hcheck₁⟩ : ∃ s, relax below = .ok s ∧
      (decide (s.fractional? = none) &&
        (Bounds.ofModel below.simplify).toOption.any fun folded => decide (s.KeepsTo folded)) =
          true := exists_eq_ok_and (by decide +kernel)
  obtain ⟨hwhole₁, hkeeps₁⟩ := Bool.and_eq_true_iff.mp hcheck₁
  obtain ⟨e, he, _⟩ : ∃ e, relax above = .error e ∧ e.isSolveOutcome = true :=
    exists_eq_error_and (by decide +kernel)
  obtain ⟨parts, hparts⟩ := exists_branches (m := root) (v := v) (by decide) (3 / 2)
  have hfloor : ⌊(3 / 2 : ℚ)⌋ = 1 := by norm_num
  have hceil : ⌈(3 / 2 : ℚ)⌉ = 2 := by norm_num
  have hlist : parts = [below, above] := by
    rw [(branches_eq_ok hparts).2, hfloor, hceil]
    rfl
  have hsplit : Splits relax root parts s v (3 / 2) := ⟨hs, of_decide_eq_true hfractional, hparts⟩
  have hleaves : ∀ part ∈ parts, ∀ s, relax part = .ok s → s.fractional? = none := by
    rw [hlist]
    intro part hpart s' hs'
    rcases List.mem_pair.mp hpart with rfl | rfl
    · obtain rfl := Except.ok.inj (hs₁.symm.trans hs')
      exact of_decide_eq_true hwhole₁
    · exact absurd (he.symm.trans hs') (by simp)
  have hrelax : ∀ node, Visits relax root node → KeepsBounds relax node := by
    intro node hvisits s' hs'
    refine ⟨(solve_eq_ok hs').1, ?_⟩
    have hnode := hvisits.of_leaves hsplit hleaves
    rw [hlist, List.mem_pair] at hnode
    rcases hnode with rfl | rfl | rfl
    · obtain rfl := Except.ok.inj (hs.symm.trans hs')
      exact (exists_eq_ok_and hkeeps).imp fun _ h => ⟨h.1, of_decide_eq_true h.2⟩
    · obtain rfl := Except.ok.inj (hs₁.symm.trans hs')
      exact (exists_eq_ok_and hkeeps₁).imp fun _ h => ⟨h.1, of_decide_eq_true h.2⟩
    · exact absurd (he.symm.trans hs') (by simp)
  obtain ⟨outcome, hrun, hcount⟩ : ∃ outcome, (start root).run relax 31 = .ok outcome ∧
      decide (outcome.nodes = 3) = true := exists_eq_ok_and (by decide +kernel)
  refine ⟨hroot, hrelax, ?_⟩
  rcases (bounded_search_ends hroot hbox hfinite hrelax).2.1 31 (by rw [hcuts]; decide) with
    ⟨closed, last, hlast, hempty, hend⟩ | ⟨_, _, _, _, _, hfail⟩
  · obtain rfl := Except.ok.inj (hrun.symm.trans hend)
    have hnodes : last.nodes = 3 := of_decide_eq_true hcount
    rw [hnodes] at hend
    exact ⟨closed, last, hlast, hempty, hend⟩
  · exact absurd (hrun.symm.trans hfail) (by simp)

end Search

end LinearProgram
