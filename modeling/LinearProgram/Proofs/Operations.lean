import LinearProgram.Proofs.StandardForm
import LinearProgram.BranchAndBound

namespace LinearProgram

-- What may be asked of a model. The variables in it may come from any other model.
inductive Operation (α : Type) where
  | createVariable (name : String)
  | addConstraint (e : Expression α) (relation : Relation) (bound : α)
  | pushConstraint (c : Constraint α)
  | maximize (e : Expression α)
  | minimize (e : Expression α)
  | setObjective (o : Objective α)
  | simplify
  | clone

section

variable {α : Type}

-- The expression that an operation brings in.
def Operation.expression? : Operation α → Option (Expression α)
  | .addConstraint e _ _ | .maximize e | .minimize e => some e
  | .pushConstraint c => some c.expression
  | .setObjective o => some o.expression
  | .createVariable _ | .simplify | .clone => none

-- A call on a model. What it has changed by the time it fails stays changed.
abbrev Call (α : Type) := ExceptT (Error α) (StateM (Model α))

namespace Call

-- Names the first atom that is about a variable of another model.
def checkVariables (e : Expression α) : Call α Unit := do
  (← get).checkVariables e

def createVariable (name : String) : Call α Unit := do
  if ((← get).find? name).isSome then
    throw (.duplicateVariable name)
  else
    modify fun m => { m with vars := m.vars ++ [⟨name, m.vars.length⟩] }

def pushConstraint (c : Constraint α) : Call α Unit := do
  checkVariables c.expression
  modify fun m => { m with constraints := m.constraints ++ [c] }

def addConstraint [Scalar α] (e : Expression α) (relation : Relation) (bound : α) :
    Call α Unit := do
  pushConstraint (← Constraint.nonNegative e relation bound)

def setObjective (o : Objective α) : Call α Unit := do
  checkVariables o.expression
  modify fun m => { m with objective := some o }

end Call

def Operation.call [Scalar α] : Operation α → Call α Unit
  | .createVariable name => .createVariable name
  | .addConstraint e relation bound => .addConstraint e relation bound
  | .pushConstraint c => .pushConstraint c
  | .maximize e => .setObjective ⟨e, .maximize⟩
  | .minimize e => .setObjective ⟨e, .minimize⟩
  | .setObjective o => .setObjective o
  | .simplify => modify Model.simplify
  | .clone => return

def Model.expressions (m : Model α) : List (Expression α) :=
  m.constraints.map (·.expression) ++ (m.objective.map (·.expression)).toList

namespace Model

section Refusals

variable {m : Model α} {e : Expression α} {error : Error α}

theorem createVariable_eq_error {name : String} (h : m.createVariable name = .error error) :
    error = .duplicateVariable name ∧ ∃ v ∈ m.vars, v.name = name := by
  unfold createVariable at h
  split at h
  · rename_i htaken
    obtain rfl := Except.error.inj h
    obtain ⟨v, hv, hname⟩ := List.find?_isSome.mp htaken
    exact ⟨rfl, v, hv, by simpa using hname⟩
  · exact absurd h (by simp)

theorem checkVariables_eq_error (h : m.checkVariables e = .error error) :
    ∃ v ∈ e.atoms.map (·.var), m.owns v = false ∧ error = .unknownVariable v := by
  unfold checkVariables at h
  split at h
  · rename_i a hfind
    obtain rfl := Except.error.inj h
    exact ⟨a.var, List.mem_map_of_mem (List.mem_of_find?_eq_some hfind),
      by simpa using List.find?_some hfind, rfl⟩
  · exact absurd h (by simp)

-- A change that waits for its atoms to be checked fails with the check alone.
theorem checkVariables_of_eq_error {w : Model α}
    (h : (do m.checkVariables e; return w) = Except.error error) :
    m.checkVariables e = .error error := by
  rcases bind_eq_error.mp h with h | ⟨_, _, h⟩
  · exact h
  · exact absurd h (by simp [pure, Except.pure])

end Refusals

section Carries

-- The call does what the function of the model says, and nothing at all where the function fails.
structure Carries (call : Call α Unit) (change : Model α → Except (Error α) (Model α)) : Prop where
  ok : ∀ m w, change m = .ok w → call.run.run m = (.ok (), w)
  error : ∀ m error, change m = .error error → call.run.run m = (.error error, m)

theorem carries_of_run {call : Call α Unit} {change : Model α → Except (Error α) (Model α)}
    (h : ∀ m, call.run.run m = match change m with
      | .ok w => (.ok (), w)
      | .error error => (.error error, m)) : Carries call change :=
  ⟨fun m w hw => by rw [h, hw], fun m error he => by rw [h, he]⟩

theorem carries_modify (f : Model α → Model α) : Carries (modify f) fun m => .ok (f m) :=
  carries_of_run fun _ => rfl

theorem run_get (m : Model α) : (get : Call α (Model α)).run.run m = (.ok m, m) :=
  rfl

theorem run_checkVariables (m : Model α) (e : Expression α) :
    (Call.checkVariables e).run.run m = (m.checkVariables e, m) := by
  rw [Call.checkVariables, run_bind_of_ok (run_get m)]
  cases m.checkVariables e <;> rfl

-- A change that comes after its check is not made when the check fails.
theorem carries_of_check (e : Expression α) (f : Model α → Model α) :
    Carries (do Call.checkVariables e; modify f) fun m => do m.checkVariables e; return f m := by
  refine carries_of_run fun m => ?_
  have hrun := run_checkVariables m e
  cases hcheck : m.checkVariables e with
  | error error =>
    rw [hcheck] at hrun
    rw [run_bind_of_error hrun]
    rfl
  | ok _ =>
    rw [hcheck] at hrun
    rw [run_bind_of_ok hrun]
    rfl

theorem carries_createVariable (name : String) :
    Carries (α := α) (.createVariable name) fun m => do return (← m.createVariable name).2 := by
  refine carries_of_run fun m => ?_
  rw [Call.createVariable, run_bind_of_ok (run_get m)]
  unfold Model.createVariable
  split_ifs <;> rfl

theorem carries_pushConstraint (c : Constraint α) :
    Carries (.pushConstraint c) fun m => m.pushConstraint c :=
  carries_of_check _ _

theorem carries_setObjective (o : Objective α) :
    Carries (.setObjective o) fun m => m.setObjective o :=
  carries_of_check _ _

end Carries

variable [Scalar α]

def apply (m : Model α) : Operation α → Except (Error α) (Model α)
  | .createVariable name => do return (← m.createVariable name).2
  | .addConstraint e relation bound => m.addConstraint e relation bound
  | .pushConstraint c => m.pushConstraint c
  | .maximize e => m.maximize e
  | .minimize e => m.minimize e
  | .setObjective o => m.setObjective o
  | .simplify => .ok m.simplify
  | .clone => .ok m

-- The answer to a call, and the model after it.
def perform (m : Model α) (op : Operation α) : Except (Error α) Unit × Model α :=
  op.call.run.run m

-- The calls are made one after the other, whatever the answers are.
def performAll (m : Model α) (ops : List (Operation α)) : Model α :=
  ops.foldl (fun m op => (m.perform op).2) m

-- Why a call fails: the name is taken, the bound is not accepted, or a variable is not the model's.
inductive Refuses (m : Model α) : Operation α → Error α → Prop
  | duplicate {name : String} {v : Variable} (hv : v ∈ m.vars) (hname : v.name = name) :
      Refuses m (.createVariable name) (.duplicateVariable name)
  | bound {e : Expression α} {relation : Relation} {bound : α} {error : Error α}
      (h : Constraint.nonNegative e relation bound = .error error) :
      Refuses m (.addConstraint e relation bound) error
  | unknown {op : Operation α} {e : Expression α} {v : Variable} (he : op.expression? = some e)
      (hv : v ∈ e.atoms.map (·.var)) (hm : m.owns v = false) : Refuses m op (.unknownVariable v)

-- The models that calls and normalizations make from an empty one.
inductive Obtained : Model α → Prop
  | empty (name : String) : Obtained { name }
  | perform {m : Model α} (h : Obtained m) (op : Operation α) : Obtained (m.perform op).2
  | normalize {m : Model α} {normal : Normal α} (h : Obtained m)
      (hn : Normal.ofModel m = .ok normal) : Obtained normal.model

section Calls

variable {m w : Model α} {op : Operation α} {e : Expression α} {error : Error α}

theorem carries_addConstraint (e : Expression α) (relation : Relation) (bound : α) :
    Carries (.addConstraint e relation bound) fun m => m.addConstraint e relation bound := by
  unfold Call.addConstraint Model.addConstraint
  cases Constraint.nonNegative e relation bound with
  | error error => exact carries_of_run fun _ => rfl
  | ok c => exact carries_pushConstraint c

theorem carries_call (op : Operation α) : Carries op.call fun m => m.apply op := by
  cases op with
  | createVariable name => exact carries_createVariable name
  | addConstraint e relation bound => exact carries_addConstraint e relation bound
  | pushConstraint c => exact carries_pushConstraint c
  | maximize e => exact carries_setObjective ⟨e, .maximize⟩
  | minimize e => exact carries_setObjective ⟨e, .minimize⟩
  | setObjective o => exact carries_setObjective o
  | simplify => exact carries_modify Model.simplify
  | clone => exact carries_modify id

theorem perform_eq_of_ok (h : m.apply op = .ok w) : m.perform op = (.ok (), w) :=
  (carries_call op).ok m w h

theorem perform_eq_of_error (h : m.apply op = .error error) :
    m.perform op = (.error error, m) :=
  (carries_call op).error m error h

theorem WellFormed.apply (hm : m.WellFormed) (h : m.apply op = .ok w) : w.WellFormed := by
  cases op with
  | createVariable name =>
    obtain ⟨created, hc, hw⟩ := bind_eq_ok.mp h
    obtain rfl := Except.ok.inj hw
    exact hm.createVariable hc
  | addConstraint e relation bound => exact hm.addConstraint h
  | pushConstraint c => exact hm.pushConstraint h
  | maximize | minimize | setObjective => exact hm.setObjective h
  | simplify => exact Except.ok.inj h ▸ hm.simplify
  | clone => exact Except.ok.inj h ▸ hm

theorem WellFormed.perform (hm : m.WellFormed) (op : Operation α) :
    (m.perform op).2.WellFormed := by
  cases h : m.apply op with
  | ok w =>
    rw [perform_eq_of_ok h]
    exact hm.apply h
  | error e =>
    rw [perform_eq_of_error h]
    exact hm

-- Reversing a constraint leaves its variables alone.
theorem var_nonNegative {relation : Relation} {bound : α} {c : Constraint α}
    (h : Constraint.nonNegative e relation bound = .ok c) :
    c.expression.atoms.map (·.var) = e.atoms.map (·.var) := by
  rcases nonNegative_eq_ok h with he | he
  · rw [he]
  · rw [he, map_var_neg]

theorem refuses_of_apply (h : m.apply op = .error error) : m.Refuses op error := by
  have hunknown : ∀ {f : Expression α}, op.expression? = some f →
      m.checkVariables f = .error error → m.Refuses op error := by
    intro f hf hcheck
    obtain ⟨v, hv, hm, rfl⟩ := checkVariables_eq_error hcheck
    exact .unknown hf hv hm
  cases op with
  | createVariable name =>
    rcases bind_eq_error.mp h with hc | ⟨_, _, hw⟩
    · obtain ⟨rfl, v, hv, hname⟩ := createVariable_eq_error hc
      exact .duplicate hv hname
    · exact absurd hw (by simp [pure, Except.pure])
  | addConstraint e relation bound =>
    rcases bind_eq_error.mp h with hbound | ⟨c, hc, hpush⟩
    · exact .bound hbound
    · obtain ⟨v, hv, hm, rfl⟩ := checkVariables_eq_error (checkVariables_of_eq_error hpush)
      exact .unknown rfl (var_nonNegative hc ▸ hv) hm
  | pushConstraint | maximize | minimize | setObjective =>
    exact hunknown rfl (checkVariables_of_eq_error h)
  | simplify | clone => exact absurd h (by simp [Model.apply])

theorem perform_eq_error (h : (m.perform op).1 = .error error) :
    (m.perform op).2 = m ∧ m.Refuses op error := by
  cases ha : m.apply op with
  | ok w =>
    rw [perform_eq_of_ok ha] at h
    exact absurd h (by simp)
  | error e =>
    rw [perform_eq_of_error ha] at h ⊢
    obtain rfl := Except.error.inj h
    exact ⟨rfl, refuses_of_apply ha⟩

-- What an operation brings in, an accepted call has looked up.
theorem owns_of_apply (h : m.apply op = .ok w) (he : op.expression? = some e) : m.Owns e := by
  cases op with
  | addConstraint f relation bound =>
    obtain rfl := Option.some.inj he
    obtain ⟨c, hc, hpush⟩ := bind_eq_ok.mp h
    obtain ⟨howns, _⟩ := pushConstraint_eq_ok hpush
    intro a ha
    have hmem : a.var ∈ c.expression.atoms.map (·.var) :=
      var_nonNegative hc ▸ List.mem_map_of_mem ha
    obtain ⟨b, hb, hvar⟩ := List.mem_map.mp hmem
    exact hvar ▸ howns b hb
  | pushConstraint c =>
    obtain rfl := Option.some.inj he
    exact (pushConstraint_eq_ok h).1
  | maximize f | minimize f | setObjective o =>
    obtain rfl := Option.some.inj he
    obtain ⟨_, hcheck, _⟩ := bind_eq_ok.mp h
    exact checkVariables_eq_ok hcheck
  | createVariable | simplify | clone => exact absurd he (by simp [Operation.expression?])

theorem perform_ok_iff : (m.perform op).1 = .ok () ↔ ∀ error, ¬m.Refuses op error := by
  cases h : m.apply op with
  | error error =>
    rw [perform_eq_of_error h]
    exact ⟨nofun, fun hnone => absurd (refuses_of_apply h) (hnone error)⟩
  | ok w =>
    refine ⟨fun _ error hrefuses => ?_, fun _ => by rw [perform_eq_of_ok h]⟩
    cases hrefuses with
    | @duplicate name v hv hname =>
      obtain ⟨⟨_, _⟩, hc, _⟩ := bind_eq_ok.mp h
      exact (createVariable_eq_ok hc).1 v hv hname
    | bound hbound =>
      obtain ⟨c, hc, _⟩ := bind_eq_ok.mp h
      exact absurd (hbound.symm.trans hc) (by simp)
    | unknown he hv hm =>
      obtain ⟨a, ha, rfl⟩ := List.mem_map.mp hv
      exact absurd (owns_of_apply h he a ha) (by simp [hm])

theorem Obtained.performAll (hm : m.Obtained) (ops : List (Operation α)) :
    (m.performAll ops).Obtained := by
  induction ops generalizing m with
  | nil => exact hm
  | cons op rest ih => exact ih (hm.perform op)

end Calls

section Ownership

variable {m : Model α} {e : Expression α} {c : Constraint α} {o : Objective α}

theorem Owns.neg (h : m.Owns e) : m.Owns (-e) := by
  intro a ha
  obtain ⟨b, hb, rfl⟩ := List.mem_map.mp ha
  exact h b hb

omit [Scalar α] in
theorem Owns.addTerm (h : m.Owns e) {v : Variable} (hv : m.owns v = true) (factor : α) :
    m.Owns (e.addTerm v factor) := by
  intro a ha
  rcases List.mem_append.mp ha with ha | ha
  · exact h a ha
  · rw [List.mem_singleton.mp ha]
    exact hv

theorem Owns.oriented (h : m.Owns c.expression) (lower : List α) :
    m.Owns (c.oriented lower).expression := by
  unfold Constraint.oriented
  simp only
  split_ifs
  · exact h.neg
  · exact h

theorem Owns.asMaximize (h : m.Owns o.expression) : m.Owns o.asMaximize.expression := by
  unfold Objective.asMaximize
  split
  · exact h
  · exact h.neg

-- An assignment with a value for each variable of the model covers what the model owns.
theorem Owns.evaluate?_eq (h : m.Owns e) {x : List α} (hx : m.vars.length ≤ x.length) :
    e.evaluate? x = some (e.evaluate x) := by
  refine if_pos (List.all_eq_true.mpr fun a ha => ?_)
  exact decide_eq_true ((index_lt_of_owns (h a ha)).trans_le hx)

omit [Scalar α] in
theorem WellFormed.owns_expressions (hm : m.WellFormed) : ∀ e ∈ m.expressions, m.Owns e := by
  intro e he
  rcases List.mem_append.mp he with he | he
  · obtain ⟨c, hc, rfl⟩ := List.mem_map.mp he
    exact hm.constraints c hc
  · obtain ⟨o, ho, rfl⟩ := Option.map_eq_some_iff.mp (Option.mem_toList.mp he)
    exact hm.objective o ho

end Ownership

section Normalization

variable {m w : Model α} {c d : Constraint α} {i : ℕ}

theorem owns_of_createFresh {stem : String} {v : Variable} (hm : m.WellFormed)
    (h : m.createFresh stem i = .ok (v, w)) : w.owns v = true := by
  obtain ⟨_, _, hext⟩ := createFresh_eq_ok h
  obtain ⟨_, rfl, rfl⟩ := createVariable_eq_ok h
  exact (hext.wellFormed hm).owns_of_mem (List.mem_append_right _ (List.mem_singleton_self _))

-- The columns that make a row an equality are variables of the model that they are added to.
theorem owns_of_addEquality (hm : m.WellFormed) (hc : m.Owns c.expression)
    (h : m.addEquality i c = .ok (d, w)) : m.Extends w ∧ w.Owns d.expression := by
  unfold addEquality at h
  split at h
  · obtain ⟨⟨slack, w₁⟩, hs, hd⟩ := bind_eq_ok.mp h
    obtain ⟨rfl, rfl⟩ := Prod.mk.inj (Except.ok.inj hd)
    obtain ⟨_, _, hext⟩ := createFresh_eq_ok hs
    exact ⟨hext, (hc.extend hext.vars).addTerm (owns_of_createFresh hm hs) _⟩
  · obtain ⟨⟨surplus, w₁⟩, hs, hrest⟩ := bind_eq_ok.mp h
    obtain ⟨⟨artificial, w₂⟩, ha, hd⟩ := bind_eq_ok.mp hrest
    obtain ⟨rfl, rfl⟩ := Prod.mk.inj (Except.ok.inj hd)
    obtain ⟨_, _, hext⟩ := createFresh_eq_ok hs
    obtain ⟨_, _, hext'⟩ := createFresh_eq_ok ha
    have hfirst := (hc.extend hext.vars).addTerm (owns_of_createFresh hm hs) (-1)
    exact ⟨hext.trans hext', (hfirst.extend hext'.vars).addTerm
      (owns_of_createFresh (hext.wellFormed hm) ha) _⟩
  · obtain ⟨⟨artificial, w₁⟩, ha, hd⟩ := bind_eq_ok.mp h
    obtain ⟨rfl, rfl⟩ := Prod.mk.inj (Except.ok.inj hd)
    obtain ⟨_, _, hext⟩ := createFresh_eq_ok ha
    exact ⟨hext, (hc.extend hext.vars).addTerm (owns_of_createFresh hm ha) _⟩

-- Induction on the constraints. The ones done already are still owned when later ones have added
-- their variables.
theorem owns_of_equalities {lower : List α} {cs ds : List (Constraint α)} (hm : m.WellFormed)
    (hcs : ∀ c ∈ cs, m.Owns c.expression) (h : Normal.equalities lower i cs m = .ok (ds, w)) :
    m.Extends w ∧ ∀ d ∈ ds, w.Owns d.expression := by
  induction cs generalizing i m ds with
  | nil =>
    obtain ⟨rfl, rfl⟩ := Prod.mk.inj (Except.ok.inj h)
    exact ⟨.refl _, by simp⟩
  | cons c rest ih =>
    obtain ⟨hc, hcs⟩ := List.forall_mem_cons.mp hcs
    obtain ⟨d, v, tail, hd, htail, rfl⟩ := equalities_cons_eq_ok_iff.mp h
    obtain ⟨hext, howns⟩ : m.Extends v ∧ v.Owns d.expression := by
      split_ifs at hd
      · exact owns_of_addEquality hm (hc.oriented lower) hd
      · obtain ⟨rfl, rfl⟩ := Prod.mk.inj (Except.ok.inj hd)
        exact ⟨.refl _, hc⟩
    obtain ⟨hext', htail⟩ := ih (hext.wellFormed hm)
      (fun c' hc' => (hcs c' hc').extend hext.vars) htail
    exact ⟨hext.trans hext', List.forall_mem_cons.mpr ⟨howns.extend hext'.vars, htail⟩⟩

theorem WellFormed.normalize {normal : Normal α} (hm : m.WellFormed)
    (h : Normal.ofModel m = .ok normal) :
    normal.model.WellFormed ∧ m.vars <+: normal.model.vars := by
  obtain ⟨o, ho, hrest⟩ := bind_eq_ok.mp h
  obtain ⟨bounds, _, hrest⟩ := bind_eq_ok.mp hrest
  obtain ⟨⟨constraints, widened⟩, heq, hnew⟩ := bind_eq_ok.mp hrest
  obtain rfl := Except.ok.inj hnew
  have hsimplified : ({ m.simplify with name := m.name ++ " (normalized)" } : Model α).WellFormed :=
    ⟨hm.index, hm.names, hm.simplify.constraints, hm.simplify.objective⟩
  obtain ⟨hext, howns⟩ := owns_of_equalities hsimplified hsimplified.constraints heq
  have hwidened := hext.wellFormed hsimplified
  refine ⟨⟨hwidened.index, hwidened.names, howns, fun p hp => ?_⟩, hext.vars⟩
  obtain rfl := Option.some.inj hp
  have hobjective : m.Owns o.simplify.expression := (hm.objective o (validate_eq_ok ho)).simplify
  exact (hobjective.asMaximize).extend hext.vars

theorem Obtained.wellFormed (h : m.Obtained) : m.WellFormed := by
  induction h with
  | empty name => exact wellFormed_empty name
  | perform _ op ih => exact ih.perform op
  | normalize _ hn ih => exact (ih.normalize hn).1

end Normalization

end Model

section Solving

variable [Scalar α] {m : Model α} {s : Solution α} {solver : Solver}

-- The columns of a solution are the variables of the model normalized.
theorem normal_of_solve (h : solver.solve m = .ok s) :
    ∃ normal, Normal.ofModel m = .ok normal ∧ s.form.model = normal.model ∧
      s.form.cols = s.form.model.vars.length := by
  obtain ⟨form, hform, hrest⟩ := bind_eq_ok.mp h
  obtain ⟨first, _, hrest⟩ := bind_eq_ok.mp hrest
  obtain ⟨_, _, hrest⟩ := bind_eq_ok.mp hrest
  obtain ⟨second, _, hrest⟩ := bind_eq_ok.mp hrest
  obtain ⟨final, _, hs⟩ := bind_eq_ok.mp hrest
  obtain rfl := Except.ok.inj hs
  obtain ⟨normal, hnormal, hform⟩ := bind_eq_ok.mp hform
  exact ⟨normal, hnormal, ofNormal_model hform⟩

theorem Model.Obtained.solve (hm : m.Obtained) (h : solver.solve m = .ok s) :
    s.form.model.Obtained ∧ m.vars <+: s.form.model.vars := by
  obtain ⟨normal, hnormal, hmodel, _⟩ := normal_of_solve h
  rw [hmodel]
  exact ⟨hm.normalize hnormal, (hm.wellFormed.normalize hnormal).2⟩

-- A model over the variables of the root, as all nodes of a search are.
structure Model.Shares (root node : Model α) : Prop where
  obtained : node.Obtained
  vars : node.vars = root.vars

-- The nodes are over the root's variables, and the incumbent is a solution of one of them.
structure Search.StaysOver (solver : Solver) (root : Model α) (search : Search α) : Prop where
  pending : ∀ node ∈ search.pending, root.Shares node
  incumbent : ∀ s, search.incumbent = some s → ∃ node, root.Shares node ∧ solver.solve node = .ok s

section Search

variable {root node part : Model α} {search next : Search α}

theorem Model.Shares.withBound (h : root.Shares node) {v : Variable} {relation : Relation}
    {bound : α} (hpart : node.withBound v relation bound = .ok part) : root.Shares part := by
  have hperform : node.perform (.addConstraint (.ofTerms [(v, 1)]) relation bound) =
      (.ok (), part) := perform_eq_of_ok hpart
  obtain ⟨c, _, hpush⟩ := bind_eq_ok.mp hpart
  obtain ⟨_, hvars⟩ := pushConstraint_eq_ok hpush
  refine ⟨?_, hvars ▸ h.vars⟩
  have hobtained := h.obtained.perform (.addConstraint (.ofTerms [(v, 1)]) relation bound)
  rwa [hperform] at hobtained

theorem Model.Shares.of_mem_branches (h : root.Shares node) {v : Variable} {value : α}
    {parts : List (Model α)} (hparts : Search.branches node v value = .ok parts) :
    ∀ part ∈ parts, root.Shares part := by
  obtain ⟨above, habove, hrest⟩ := bind_eq_ok.mp hparts
  obtain ⟨below, hbelow, hlist⟩ := bind_eq_ok.mp hrest
  obtain rfl := Except.ok.inj hlist
  simpa using ⟨h.withBound hbelow, h.withBound habove⟩

-- A verdict that improves is on the relaxation of the node itself.
theorem Search.solve_of_judge {incumbent : Option (Solution α)}
    (h : Search.judge solver.solve incumbent node = .ok (.improved s)) :
    solver.solve node = .ok s := by
  unfold judge at h
  split at h
  · split_ifs at h
    exact absurd h (by simp)
  · rename_i t hsolve
    simp only at h
    split_ifs at h
    · exact absurd h (by simp)
    · split at h
      · exact absurd h (by simp)
      · obtain rfl := Verdict.improved.inj (Except.ok.inj h)
        exact hsolve

theorem Search.StaysOver.visit (h : search.StaysOver solver root) {rest : List (Model α)}
    (hpending : search.pending = node :: rest)
    (hvisit : search.visit solver.solve node rest = .ok next) : next.StaysOver solver root := by
  obtain ⟨hnode, hrest⟩ := List.forall_mem_cons.mp (hpending ▸ h.pending)
  obtain ⟨verdict, hjudge, hsettle⟩ := bind_eq_ok.mp hvisit
  cases verdict with
  | pruned | noImprovement =>
    obtain rfl := Except.ok.inj hsettle
    exact ⟨hrest, h.incumbent⟩
  | branch v value =>
    obtain ⟨parts, hparts, hnext⟩ := bind_eq_ok.mp hsettle
    obtain rfl := Except.ok.inj hnext
    exact ⟨List.forall_mem_append.mpr ⟨hnode.of_mem_branches hparts, hrest⟩, h.incumbent⟩
  | improved s =>
    obtain rfl := Except.ok.inj hsettle
    refine ⟨hrest, fun t ht => ?_⟩
    obtain rfl := Option.some.inj ht
    exact ⟨node, hnode, solve_of_judge hjudge⟩

theorem Search.StaysOver.run {allowance : ℕ} {outcome : SearchOutcome α}
    (h : search.StaysOver solver root) (hrun : search.run solver.solve allowance = .ok outcome)
    (hbest : outcome.best = some s) : ∃ node, root.Shares node ∧ solver.solve node = .ok s := by
  induction allowance generalizing search with
  | zero =>
    unfold Search.run at hrun
    split at hrun <;> obtain rfl := Except.ok.inj hrun <;> exact h.incumbent s hbest
  | succ allowance ih =>
    unfold Search.run at hrun
    split at hrun
    · obtain rfl := Except.ok.inj hrun
      exact h.incumbent s hbest
    · rename_i node rest hpending
      simp only at hrun
      split at hrun
      · exact absurd hrun (by simp)
      · rename_i next hvisit
        exact ih (h.visit hpending hvisit) hrun

end Search

theorem Model.Obtained.search {solver : BranchAndBound} {outcome : SearchOutcome α}
    (hm : m.Obtained) (h : solver.search m = .ok outcome) (hbest : outcome.best = some s) :
    s.form.model.Obtained ∧ m.vars <+: s.form.model.vars := by
  obtain ⟨_, _, hrun⟩ := bind_eq_ok.mp h
  have hstart : (Search.start m).StaysOver solver.simplex m :=
    ⟨by simpa [Search.start] using ⟨hm, rfl⟩, by simp [Search.start]⟩
  obtain ⟨node, hnode, hsolve⟩ := hstart.run hrun hbest
  rw [← hnode.vars]
  exact hnode.obtained.solve hsolve

end Solving

variable [Scalar α]

-- Whatever is asked of a model, it stays well formed, and its expressions can be evaluated on every
-- assignment that has a value for each of its variables. A call that fails leaves the model alone,
-- and a model that solving makes has the given variables first.
theorem operations_keep_integrity :
    (∀ m : Model α, m.Obtained → m.WellFormed ∧
      ∀ e ∈ m.expressions, ∀ x : List α, m.vars.length ≤ x.length →
        e.evaluate? x = some (e.evaluate x)) ∧
    (∀ (m : Model α) (op : Operation α),
      ((m.perform op).1 = .ok () ↔ ∀ error, ¬m.Refuses op error) ∧
      ∀ error, (m.perform op).1 = .error error → (m.perform op).2 = m ∧ m.Refuses op error) ∧
    (∀ (m : Model α) (normal : Normal α), m.Obtained → Normal.ofModel m = .ok normal →
      normal.model.Obtained ∧ m.vars <+: normal.model.vars) ∧
    (∀ (solver : Solver) (m : Model α) (s : Solution α), m.Obtained → solver.solve m = .ok s →
      s.form.model.Obtained ∧ m.vars <+: s.form.model.vars) ∧
    ∀ (solver : BranchAndBound) (m : Model α) (outcome : SearchOutcome α) (s : Solution α),
      m.Obtained → solver.search m = .ok outcome → outcome.best = some s →
        s.form.model.Obtained ∧ m.vars <+: s.form.model.vars := by
  refine ⟨fun m hm => ⟨hm.wellFormed, fun e he x hx => ?_⟩,
    fun m op => ⟨Model.perform_ok_iff, fun error => Model.perform_eq_error⟩,
    fun m normal hm hn => ⟨hm.normalize hn, (hm.wellFormed.normalize hn).2⟩,
    fun solver m s hm => hm.solve, fun solver m outcome s hm => hm.search⟩
  exact (hm.wellFormed.owns_expressions e he).evaluate?_eq hx

end

-- The name of the first variable is the one that the slack of the first row would have.
def clashingModel : Model ℚ :=
  ({ name := "m" } : Model ℚ).performAll [
    .createVariable "s0", .createVariable "x", .createVariable "x",
    .addConstraint (.ofTerms [(⟨"s0", 0⟩, 1), (⟨"x", 1⟩, 2)]) .le 5,
    .maximize (.ofTerms [(⟨"y", 1⟩, 1)]), .maximize (.ofTerms [(⟨"x", 1⟩, 1)])]

-- Two of the six calls are refused. The branches of the search have bounds of their own.
theorem operations_keep_integrity_of_clashing :
    clashingModel.Obtained ∧ clashingModel.WellFormed ∧
    (∀ e ∈ clashingModel.expressions, e.evaluate? [1, 2] = some (e.evaluate [1, 2])) ∧
    clashingModel.vars = [⟨"s0", 0⟩, ⟨"x", 1⟩] ∧ clashingModel.constraints.length = 1 ∧
    (∃ error, (clashingModel.perform (.minimize (.ofTerms [(⟨"x", 0⟩, 1)]))).1 = .error error ∧
      (clashingModel.perform (.minimize (.ofTerms [(⟨"x", 0⟩, 1)]))).2 = clashingModel ∧
      clashingModel.Refuses (.minimize (.ofTerms [(⟨"x", 0⟩, 1)])) error) ∧
    (∃ normal, Normal.ofModel clashingModel = .ok normal ∧ normal.model.Obtained ∧
      clashingModel.vars <+: normal.model.vars ∧
      normal.model.vars = [⟨"s0", 0⟩, ⟨"x", 1⟩, ⟨"s0'", 2⟩]) ∧
    (∃ s, Solver.solve {} clashingModel = .ok s ∧ s.form.model.Obtained ∧
      clashingModel.vars <+: s.form.model.vars) ∧
    ∃ outcome s, BranchAndBound.search ⟨⟨9⟩, {}⟩ clashingModel = .ok outcome ∧
      outcome.best = some s ∧ outcome.nodes = 3 ∧ s.form.model.Obtained ∧
      clashingModel.vars <+: s.form.model.vars := by
  obtain ⟨hobtained, hcalls, hnormalize, hsolve, hsearch⟩ := operations_keep_integrity (α := ℚ)
  have hclashingModel : clashingModel.Obtained := (Model.Obtained.empty "m").performAll _
  have hvars : clashingModel.vars = [⟨"s0", 0⟩, ⟨"x", 1⟩] := by decide +kernel
  obtain ⟨hwellFormed, hevaluates⟩ := hobtained clashingModel hclashingModel
  obtain ⟨error, herror, _⟩ : ∃ error,
      (clashingModel.perform (.minimize (.ofTerms [(⟨"x", 0⟩, 1)]))).1 = .error error ∧ true = true :=
    exists_eq_error_and (by decide +kernel)
  obtain ⟨normal, hnormal, hfresh⟩ : ∃ normal, Normal.ofModel clashingModel = .ok normal ∧
      decide (normal.model.vars = [⟨"s0", 0⟩, ⟨"x", 1⟩, ⟨"s0'", 2⟩]) = true :=
    exists_eq_ok_and (by decide +kernel)
  obtain ⟨s, hs, _⟩ : ∃ s, Solver.solve {} clashingModel = .ok s ∧ true = true :=
    exists_eq_ok_and (by decide +kernel)
  obtain ⟨outcome, houtcome, hends⟩ : ∃ outcome,
      BranchAndBound.search ⟨⟨9⟩, {}⟩ clashingModel = .ok outcome ∧
        (outcome.best.isSome && decide (outcome.nodes = 3)) = true :=
    exists_eq_ok_and (by decide +kernel)
  obtain ⟨hbest, hnodes⟩ := Bool.and_eq_true_iff.mp hends
  obtain ⟨best, hbest⟩ := Option.isSome_iff_exists.mp hbest
  exact ⟨hclashingModel, hwellFormed, fun e he => hevaluates e he _ (by rw [hvars]; decide), hvars,
    by decide +kernel, ⟨error, herror, (hcalls _ _).2 error herror⟩,
    ⟨normal, hnormal, (hnormalize _ _ hclashingModel hnormal).1,
      (hnormalize _ _ hclashingModel hnormal).2,
      of_decide_eq_true hfresh⟩,
    ⟨s, hs, hsolve _ _ _ hclashingModel hs⟩,
    ⟨outcome, best, houtcome, hbest, of_decide_eq_true hnodes,
      hsearch _ _ _ _ hclashingModel houtcome hbest⟩⟩

end LinearProgram
