import LinearProgram.Proofs.Expression
import LinearProgram.Normal

namespace LinearProgram

-- A computation succeeds when both of its parts do.
theorem bind_eq_ok {ε β γ : Type} {x : Except ε β} {f : β → Except ε γ} {b : γ} :
    x >>= f = .ok b ↔ ∃ a, x = .ok a ∧ f a = .ok b := by
  cases x <;> simp [bind, Except.bind]

theorem bind_eq_error {ε β γ : Type} {x : Except ε β} {f : β → Except ε γ} {e : ε} :
    x >>= f = .error e ↔ x = .error e ∨ ∃ a, x = .ok a ∧ f a = .error e := by
  cases x <;> simp [bind, Except.bind]

theorem exists_eq_ok {ε β : Type} {x : Except ε β} (h : x.isOk = true) : ∃ b, x = .ok b := by
  cases x with
  | error _ => exact absurd h (by simp [Except.isOk, Except.toBool])
  | ok b => exact ⟨b, rfl⟩

theorem exists_eq_ok_and {ε β : Type} {x : Except ε β} {p : β → Bool}
    (h : x.toOption.any p = true) : ∃ b, x = .ok b ∧ p b = true := by
  cases x with
  | error _ => exact absurd h (by simp [Except.toOption])
  | ok b => exact ⟨b, rfl, h⟩

theorem exists_eq_error_and {ε β : Type} {x : Except ε β} {p : ε → Bool}
    (h : (match x with | .error e => p e | .ok _ => false) = true) :
    ∃ e, x = .error e ∧ p e = true := by
  cases x with
  | error e => exact ⟨e, rfl, h⟩
  | ok _ => exact absurd h (by simp)

-- The same for a computation with a state, which outlasts a failure.
theorem run_bind_of_ok {ε σ β γ : Type} {x : ExceptT ε (StateM σ) β} {b : β} {s s' : σ}
    (h : x.run.run s = (.ok b, s')) (f : β → ExceptT ε (StateM σ) γ) :
    (x >>= f).run.run s = (f b).run.run s' := by
  have hbind : (x >>= f).run.run s =
      (ExceptT.bindCont f (x.run.run s).1).run (x.run.run s).2 := rfl
  rw [hbind, h]
  rfl

theorem run_bind_of_error {ε σ β γ : Type} {x : ExceptT ε (StateM σ) β} {e : ε} {s s' : σ}
    (h : x.run.run s = (.error e, s')) (f : β → ExceptT ε (StateM σ) γ) :
    (x >>= f).run.run s = (.error e, s') := by
  have hbind : (x >>= f).run.run s =
      (ExceptT.bindCont f (x.run.run s).1).run (x.run.run s).2 := rfl
  rw [hbind, h]
  rfl

-- Negating leaves the variables alone.
@[simp] theorem map_var_neg {α : Type} [Scalar α] (e : Expression α) :
    (-e).atoms.map (·.var) = e.atoms.map (·.var) :=
  List.map_map

-- A constraint is taken as it is or reversed.
theorem nonNegative_eq_ok {α : Type} [Scalar α] {e : Expression α} {relation : Relation}
    {bound : α} {c : Constraint α} (h : Constraint.nonNegative e relation bound = .ok c) :
    c.expression = e ∨ c.expression = -e := by
  unfold Constraint.nonNegative Constraint.withBound at h
  split_ifs at h
  · exact Or.inr (Except.ok.inj h ▸ rfl)
  · exact Or.inl (Except.ok.inj h ▸ rfl)

namespace Model

variable {α : Type}

-- Every atom is about a variable of the model.
def Owns (m : Model α) (e : Expression α) : Prop :=
  ∀ a ∈ e.atoms, m.owns a.var = true

structure WellFormed (m : Model α) : Prop where
  index : ∀ k (h : k < m.vars.length), m.vars[k].index = k
  names : (m.vars.map (·.name)).Nodup
  constraints : ∀ c ∈ m.constraints, m.Owns c.expression
  objective : ∀ o, m.objective = some o → m.Owns o.expression

instance (m : Model α) (e : Expression α) : Decidable (m.Owns e) :=
  inferInstanceAs (Decidable (∀ a ∈ e.atoms, m.owns a.var = true))

instance (m : Model α) : Decidable m.WellFormed :=
  decidable_of_iff
    ((∀ k (h : k < m.vars.length), m.vars[k].index = k) ∧ (m.vars.map (·.name)).Nodup ∧
      (∀ c ∈ m.constraints, m.Owns c.expression) ∧ ∀ o ∈ m.objective, m.Owns o.expression)
    ⟨fun ⟨hi, hn, hc, ho⟩ => ⟨hi, hn, hc, ho⟩, fun h => ⟨h.1, h.2, h.3, h.4⟩⟩

theorem owns_iff (m : Model α) (v : Variable) :
    m.owns v = true ↔ m.vars[v.index]? = some v := by
  simp [owns]

theorem index_lt_of_owns {m : Model α} {v : Variable} (h : m.owns v = true) :
    v.index < m.vars.length :=
  (List.getElem?_eq_some_iff.mp ((m.owns_iff v).mp h)).1

-- What a model owns it owns with further variables too.
theorem owns_extend {m w : Model α} (hw : m.vars <+: w.vars) {v : Variable}
    (h : m.owns v = true) : w.owns v = true := by
  obtain ⟨fresh, hf⟩ := hw
  rw [owns_iff] at h ⊢
  rw [← hf, List.getElem?_append_left (List.getElem?_eq_some_iff.mp h).1]
  exact h

theorem Owns.extend {m w : Model α} (hw : m.vars <+: w.vars) {e : Expression α}
    (h : m.Owns e) : w.Owns e :=
  fun a ha => owns_extend hw (h a ha)

section Operations

variable {m w : Model α}

theorem wellFormed_empty (name : String) : ({ name } : Model α).WellFormed :=
  ⟨by simp, by simp, by simp, by simp⟩

theorem createVariable_eq_ok {name : String} {v : Variable}
    (h : m.createVariable name = .ok (v, w)) :
    (∀ u ∈ m.vars, u.name ≠ name) ∧ v = ⟨name, m.vars.length⟩ ∧
      w = { m with vars := m.vars ++ [v] } := by
  unfold createVariable at h
  split at h
  · simp at h
  · rename_i hn
    obtain ⟨rfl, rfl⟩ := Prod.mk.inj (Except.ok.inj h)
    refine ⟨fun u hu he => hn ?_, rfl, rfl⟩
    exact List.find?_isSome.mpr ⟨u, hu, by simpa using he⟩

theorem WellFormed.createVariable (hm : m.WellFormed) {name : String} {v : Variable}
    (h : m.createVariable name = .ok (v, w)) : w.WellFormed := by
  obtain ⟨hnew, rfl, rfl⟩ := createVariable_eq_ok h
  refine ⟨fun k hk => ?_, ?_, fun c hc => ?_, fun o ho => ?_⟩
  · simp only [List.length_append, List.length_singleton] at hk
    by_cases hlt : k < m.vars.length
    · rw [List.getElem_append_left hlt]
      exact hm.index k hlt
    · have he : k = m.vars.length := by omega
      subst he
      simp
  · simp only [List.map_append, List.map_cons, List.map_nil]
    refine List.Nodup.append hm.names (List.nodup_singleton _) ?_
    simp only [List.disjoint_singleton, List.mem_map]
    rintro ⟨u, hu, he⟩
    exact hnew u hu he
  · exact (hm.constraints c hc).extend (List.prefix_append _ _)
  · exact (hm.objective o ho).extend (List.prefix_append _ _)

theorem checkVariables_eq_ok {e : Expression α} (h : m.checkVariables e = .ok ()) : m.Owns e := by
  unfold checkVariables at h
  split at h
  · simp at h
  · rename_i hn
    intro a ha
    simpa using List.find?_eq_none.mp hn a ha

theorem pushConstraint_eq_ok {c : Constraint α} (h : m.pushConstraint c = .ok w) :
    m.Owns c.expression ∧ w = { m with constraints := m.constraints ++ [c] } := by
  obtain ⟨_, hc, hw⟩ := bind_eq_ok.mp h
  exact ⟨checkVariables_eq_ok hc, (Except.ok.inj hw).symm⟩

-- What a model owns it takes.
theorem pushConstraint_of_owns {c : Constraint α} (h : m.Owns c.expression) :
    m.pushConstraint c = .ok { m with constraints := m.constraints ++ [c] } := by
  have hcheck : m.checkVariables c.expression = .ok () := by
    unfold checkVariables
    rw [List.find?_eq_none.mpr fun a ha => by simpa using h a ha]
  exact bind_eq_ok.mpr ⟨(), hcheck, rfl⟩

theorem WellFormed.pushConstraint (hm : m.WellFormed) {c : Constraint α}
    (h : m.pushConstraint c = .ok w) : w.WellFormed := by
  obtain ⟨hc, rfl⟩ := pushConstraint_eq_ok h
  refine ⟨hm.index, hm.names, fun d hd => ?_, hm.objective⟩
  rcases List.mem_append.mp hd with hd | hd
  · exact hm.constraints d hd
  · rw [List.mem_singleton.mp hd]
    exact hc

theorem WellFormed.addConstraint [Scalar α] (hm : m.WellFormed) {e : Expression α}
    {relation : Relation} {bound : α} (h : m.addConstraint e relation bound = .ok w) :
    w.WellFormed := by
  obtain ⟨_, _, hw⟩ := bind_eq_ok.mp h
  exact hm.pushConstraint hw

theorem WellFormed.setObjective (hm : m.WellFormed) {o : Objective α}
    (h : m.setObjective o = .ok w) : w.WellFormed := by
  obtain ⟨_, hc, hw⟩ := bind_eq_ok.mp h
  obtain rfl := Except.ok.inj hw
  refine ⟨hm.index, hm.names, hm.constraints, fun p hp => ?_⟩
  obtain rfl := Option.some.inj hp
  exact checkVariables_eq_ok hc

theorem Owns.simplify [Scalar α] {e : Expression α} (h : m.Owns e) : m.Owns e.simplify := by
  intro b hb
  obtain ⟨a, ha, he⟩ := Expression.var_mem_simplify e b hb
  rw [he]
  exact h a ha

theorem WellFormed.simplify [Scalar α] (hm : m.WellFormed) : m.simplify.WellFormed := by
  refine ⟨hm.index, hm.names, fun c hc => ?_, fun o ho => ?_⟩
  · obtain ⟨d, hd, rfl⟩ := List.mem_map.mp hc
    exact Owns.simplify (m := m) (hm.constraints d hd)
  · obtain ⟨p, hp, rfl⟩ := Option.map_eq_some_iff.mp ho
    exact Owns.simplify (m := m) (hm.objective p hp)

theorem WellFormed.index_lt (hm : m.WellFormed) {c : Constraint α} (hc : c ∈ m.constraints) :
    ∀ a ∈ c.expression.atoms, a.var.index < m.vars.length :=
  fun a ha => index_lt_of_owns (hm.constraints c hc a ha)

theorem WellFormed.owns_of_mem (hm : m.WellFormed) {v : Variable} (hv : v ∈ m.vars) :
    m.owns v = true := by
  obtain ⟨k, hk, rfl⟩ := List.getElem_of_mem hv
  rw [owns_iff, hm.index k hk]
  exact List.getElem?_eq_getElem hk

theorem WellFormed.simplify_index_lt [Scalar α] (hm : m.WellFormed) :
    ∀ c ∈ m.simplify.constraints, ∀ a ∈ c.expression.atoms, a.var.index < m.vars.length :=
  fun _ hc => hm.simplify.index_lt hc

end Operations

end Model

end LinearProgram
