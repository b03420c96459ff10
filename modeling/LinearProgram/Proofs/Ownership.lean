import LinearProgram.Proofs.Acceptance
import LinearProgram.Proofs.Operations

namespace LinearProgram

section

variable {α : Type}

-- In how many atoms the expression has the column of the variable.
def Expression.occurrences (e : Expression α) (v : Variable) : ℕ :=
  (e.atoms.map (·.var)).countP fun u => u.index = v.index

-- The variable was appended for constraint number `k`, which has it in one atom, and nothing else
-- in the model has it.
structure Model.OwnedBy (w : Model α) (v : Variable) (k : ℕ) : Prop where
  own : ∃ d, w.constraints[k]? = some d ∧ v ∈ d.own
  constraints : ∀ l d, w.constraints[l]? = some d →
    d.expression.occurrences v = if l = k then 1 else 0
  objective : ∀ o, w.objective = some o → o.expression.occurrences v = 0

-- The constraints of the normal form `w` are those of the simplified model, one for one. The
-- variables follow those of the model in the order of their rows.
structure Model.Normalizes [Scalar α] (m w : Model α) : Prop where
  vars : w.vars = m.vars ++ w.constraints.flatMap Constraint.own
  length : w.constraints.length = m.constraints.length
  rows : ∀ k c d, m.simplify.constraints[k]? = some c → w.constraints[k]? = some d →
    (m.addVariables ((w.constraints.take k).flatMap Constraint.own)).TakesOver k c d

end

namespace Model

variable {α : Type} {m w : Model α} {u v : Variable} {e : Expression α} {n : ℕ}

section Columns

theorem WellFormed.eq_of_index_eq (hw : w.WellFormed) (hu : u ∈ w.vars) (hv : v ∈ w.vars)
    (h : u.index = v.index) : u = v := by
  have hat := (w.owns_iff u).mp (hw.owns_of_mem hu)
  rw [h, (w.owns_iff v).mp (hw.owns_of_mem hv)] at hat
  exact (Option.some.inj hat).symm

theorem WellFormed.le_index_of_mem_drop (hw : w.WellFormed) (hv : v ∈ w.vars.drop n) :
    n ≤ v.index := by
  obtain ⟨k, hk, rfl⟩ := List.getElem_of_mem hv
  rw [List.getElem_drop, hw.index]
  omega

theorem WellFormed.countP_index_eq (hw : w.WellFormed) {vs : List Variable}
    (hvs : ∀ u ∈ vs, u ∈ w.vars) (hv : v ∈ w.vars) :
    (vs.countP fun u => u.index = v.index) = vs.count v := by
  refine List.countP_congr fun u hu => ?_
  rw [decide_eq_true_iff, beq_iff_eq]
  exact ⟨hw.eq_of_index_eq (hvs u hu) hv, fun h => congrArg _ h⟩

theorem occurrences_eq_zero (h : ∀ a ∈ e.atoms, a.var.index < n) (hn : n ≤ v.index) :
    e.occurrences v = 0 := by
  refine List.countP_eq_zero.mpr fun u hu => ?_
  obtain ⟨a, ha, rfl⟩ := List.mem_map.mp hu
  have hne : a.var.index ≠ v.index := ((h a ha).trans_le hn).ne
  simpa using hne

-- The constraint itself is about the columns before `n`.
theorem TakesOver.occurrences_eq [Scalar α] {i : ℕ} {c d : Constraint α} (h : m.TakesOver i c d)
    (hc : ∀ a ∈ c.expression.atoms, a.var.index < n) (hn : n ≤ v.index) :
    d.expression.occurrences v = d.own.countP fun u => u.index = v.index := by
  have hzero := occurrences_eq_zero hc hn
  unfold Expression.occurrences at hzero ⊢
  rw [h.map_var, List.countP_append, hzero, Nat.zero_add]

end Columns

section Rows

-- No variable was appended twice, so two rows share none.
theorem count_own_eq {ds : List (Constraint α)} (hnodup : (ds.flatMap Constraint.own).Nodup)
    {k l : ℕ} {d f : Constraint α} (hk : ds[k]? = some d) (hl : ds[l]? = some f)
    (hv : v ∈ d.own) : f.own.count v = if l = k then 1 else 0 := by
  obtain ⟨hown, hdisjoint⟩ := List.nodup_flatMap.mp hnodup
  obtain ⟨hklt, rfl⟩ := List.getElem?_eq_some_iff.mp hk
  obtain ⟨hllt, rfl⟩ := List.getElem?_eq_some_iff.mp hl
  by_cases hlk : l = k
  · subst hlk
    rw [if_pos rfl]
    exact List.count_eq_one_of_mem (hown _ (List.getElem_mem hklt)) hv
  · rw [if_neg hlk]
    refine List.count_eq_zero_of_not_mem fun hf => ?_
    have hpairs := List.pairwise_iff_getElem.mp hdisjoint
    rcases Nat.lt_or_gt_of_ne hlk with hlt | hlt
    · exact hpairs l k hllt hklt hlt hf hv
    · exact hpairs k l hklt hllt hlt hv hf

variable [Scalar α] {normal : Normal α}

theorem normalizes_of_ofModel (h : Normal.ofModel m = .ok normal) :
    m.Normalizes normal.model := by
  obtain ⟨_, _, hrest⟩ := bind_eq_ok.mp h
  obtain ⟨bounds, _, hrest⟩ := bind_eq_ok.mp hrest
  obtain ⟨⟨constraints, widened⟩, heq, hnew⟩ := bind_eq_ok.mp hrest
  obtain rfl := Except.ok.inj hnew
  obtain ⟨ds, hds, hlength, hrows⟩ := Normal.exists_equalities bounds.lower.toList 0
    m.simplify.constraints { m.simplify with name := m.name ++ " (normalized)" }
  obtain ⟨rfl, rfl⟩ := Prod.mk.inj (Except.ok.inj (hds.symm.trans heq))
  refine ⟨rfl, by simpa [simplify] using hlength, fun k c d hc hd => ?_⟩
  have hk := hrows k c d hc hd
  rw [Nat.zero_add] at hk
  exact hk.congr rfl

-- The objective is about the variables of the model alone.
theorem occurrences_objective (hm : m.WellFormed) (h : Normal.ofModel m = .ok normal)
    (hv : m.vars.length ≤ v.index) {o : Objective α} (ho : normal.model.objective = some o) :
    o.expression.occurrences v = 0 := by
  obtain ⟨given, hgiven, hrest⟩ := bind_eq_ok.mp h
  obtain ⟨_, _, hrest⟩ := bind_eq_ok.mp hrest
  obtain ⟨_, _, hnew⟩ := bind_eq_ok.mp hrest
  obtain rfl := Except.ok.inj hnew
  obtain rfl := Option.some.inj ho
  have howns : m.Owns given.simplify.asMaximize.expression :=
    ((hm.objective given (validate_eq_ok hgiven)).simplify (e := given.expression)).asMaximize
  exact occurrences_eq_zero (fun a ha => index_lt_of_owns (howns a ha)) hv

theorem exists_ownedBy (hm : m.WellFormed) (h : Normal.ofModel m = .ok normal)
    (hv : v ∈ normal.model.vars.drop m.vars.length) : ∃ k, normal.model.OwnedBy v k := by
  have hnormalizes := normalizes_of_ofModel h
  have hw := (hm.normalize h).1
  have hindex := hw.le_index_of_mem_drop hv
  have hin := List.mem_of_mem_drop hv
  have hvars := hnormalizes.vars
  have hnodup : (normal.model.constraints.flatMap Constraint.own).Nodup :=
    (hw.names.of_map _).sublist (hvars ▸ List.sublist_append_right _ _)
  rw [hvars, List.drop_left] at hv
  obtain ⟨d, hd, hown⟩ := List.mem_flatMap.mp hv
  obtain ⟨k, hk⟩ := List.mem_iff_getElem?.mp hd
  refine ⟨k, ⟨d, hk, hown⟩, fun l f hl => ?_, fun o => occurrences_objective hm h hindex⟩
  have hsub : ∀ u ∈ f.own, u ∈ normal.model.vars := fun u hu =>
    hvars ▸ List.mem_append_right _ (List.mem_flatMap.mpr ⟨f, List.mem_of_getElem? hl, hu⟩)
  obtain ⟨c, hc⟩ : ∃ c, m.simplify.constraints[l]? = some c := by
    have hlt := (List.getElem?_eq_some_iff.mp hl).1
    rw [hnormalizes.length] at hlt
    exact ⟨_, List.getElem?_eq_getElem (by simpa [simplify] using hlt)⟩
  have htakes := hnormalizes.rows l c f hc hl
  rw [htakes.occurrences_eq (hm.simplify_index_lt c (List.mem_of_getElem? hc)) hindex,
    hw.countP_index_eq hsub hin]
  exact count_own_eq hnodup hk hl hown

end Rows

end Model

variable {α : Type} [Scalar α]

-- The renaming puts at most one quote for each variable and ends with the shortest new name, and
-- the next variable gets it. So nothing can fail in making the rows. Each constraint keeps its
-- place, and each appended variable belongs to one row. A normal form is a well-formed model again,
-- so all this holds when it is normalized once more.
theorem appended_variables_new_and_owned :
    (∀ (m : Model α) (stem : String) (i : ℕ), ∃ quotes ≤ m.vars.length,
      (∀ count name, m.Renames (stem ++ toString i) count name ↔
        count = quotes ∧ name = m.freshName stem i) ∧
      m.freshName stem i = quotedName stem i quotes ∧
      IsLeast {q | ¬m.Takes (quotedName stem i q)} quotes ∧
      m.createFresh stem i = .ok (⟨m.freshName stem i, m.vars.length⟩,
        { m with vars := m.vars ++ [⟨m.freshName stem i, m.vars.length⟩] })) ∧
    (∀ (m : Model α) (error : Error α),
      (Normal.ofModel m = .error error ↔ m.validate = .error error ∨
        (∃ o, m.validate = .ok o) ∧
          Bounds.ofModel { m.simplify with name := m.name ++ " (normalized)" } = .error error) ∧
      ∀ name, Normal.ofModel m ≠ .error (.duplicateVariable name)) ∧
    (∀ (m : Model α) (normal : Normal α), Normal.ofModel m = .ok normal →
      m.Normalizes normal.model) ∧
    ∀ (m : Model α) (normal : Normal α), m.WellFormed → Normal.ofModel m = .ok normal →
      normal.model.WellFormed ∧
      ∀ v ∈ normal.model.vars.drop m.vars.length, ∃ k, normal.model.OwnedBy v k := by
  refine ⟨fun m stem i => ?_, fun m error => ⟨Normal.ofModel_eq_error_iff, fun name h => ?_⟩,
    fun m normal => Model.normalizes_of_ofModel,
    fun m normal hm h => ⟨(hm.normalize h).1, fun v => Model.exists_ownedBy hm h⟩⟩
  · obtain ⟨quotes, hle, hname, hleast⟩ := m.exists_freshName_eq stem i
    exact ⟨quotes, hle, fun _ _ => m.renames_iff stem i hname hleast, hname, hleast,
      m.createFresh_eq stem i⟩
  · rcases Normal.ofModel_eq_error_cases h with he | he | ⟨_, he⟩ <;> exact absurd he (by simp)

-- Two of the names look like those of appended variables.
def markedModel : Model ℚ :=
  ({ name := "m" } : Model ℚ).performAll [
    .createVariable "s0", .createVariable "R0'", .createVariable "x",
    .addConstraint (.ofTerms [(⟨"s0", 0⟩, 1), (⟨"x", 2⟩, 1)]) .ge 3,
    .addConstraint (.ofTerms [(⟨"x", 2⟩, 1)]) .le 7,
    .addConstraint (.ofTerms [(⟨"s0", 0⟩, 1), (⟨"R0'", 1⟩, 2)]) .eq 4,
    .minimize (.ofTerms [(⟨"x", 2⟩, 1)])]

-- The normal form of a normal form. The first one has taken `R0`, and the model itself has `R0'`.
theorem appended_variables_new_and_owned_of_renormalized : ∃ first second,
    Normal.ofModel markedModel = .ok first ∧ first.model.WellFormed ∧
    Normal.ofModel first.model = .ok second ∧ second.model.WellFormed ∧
    first.model.vars.length = 6 ∧
    second.model.vars.map (·.name) = ["s0", "R0'", "x", "s0'", "R0", "R2", "R0''", "R2'"] ∧
    first.model.Renames "R0" 2 "R0''" ∧ first.model.Normalizes second.model ∧
    (∃ k, second.model.OwnedBy ⟨"R0''", 6⟩ k) ∧ ∃ k, second.model.OwnedBy ⟨"R2'", 7⟩ k := by
  obtain ⟨hname, _, hnormalizes, howned⟩ := appended_variables_new_and_owned (α := ℚ)
  obtain ⟨first, hfirst, hnext⟩ : ∃ first, Normal.ofModel markedModel = .ok first ∧
      ((Normal.ofModel first.model).toOption.any fun second =>
        decide (first.model.vars.length = 6 ∧ first.model.freshName "R" 0 = "R0''" ∧
          second.model.vars = [⟨"s0", 0⟩, ⟨"R0'", 1⟩, ⟨"x", 2⟩, ⟨"s0'", 3⟩, ⟨"R0", 4⟩, ⟨"R2", 5⟩,
            ⟨"R0''", 6⟩, ⟨"R2'", 7⟩])) = true :=
    exists_eq_ok_and (by decide +kernel)
  obtain ⟨second, hsecond, hends⟩ := exists_eq_ok_and hnext
  obtain ⟨hlength, hfresh, hvars⟩ := of_decide_eq_true hends
  have hmarked : markedModel.WellFormed := ((Model.Obtained.empty "m").performAll _).wellFormed
  obtain ⟨hwellFormed, _⟩ := howned markedModel first hmarked hfirst
  obtain ⟨hwellFormed', hrows⟩ := howned first.model second hwellFormed hsecond
  obtain ⟨quotes, _, hloop, hquoted, _⟩ := hname first.model "R" 0
  have hquotes : quotes = 2 := by
    refine quotedName_injective "R" 0 (hquoted.symm.trans (hfresh.trans ?_))
    decide +kernel
  rw [hlength, hvars] at hrows
  exact ⟨first, second, hfirst, hwellFormed, hsecond, hwellFormed', hlength, by rw [hvars]; rfl,
    (hloop 2 "R0''").mpr ⟨hquotes.symm, hfresh.symm⟩, hnormalizes _ _ hsecond,
    hrows _ (by decide), hrows _ (by decide)⟩

end LinearProgram
