import LinearProgram.Proofs.Tableau.Moves

namespace LinearProgram

-- How far the entering column goes before something ends its movement.
def Leaving.length? {m : ℕ} : Leaving ℚ m → Option ℚ
  | .never => none
  | .otherBound length => some length
  | .row _ _ length => some length

-- The movement ends, and no later than at `limit`.
def Leaving.EndsBy {m : ℕ} (leaving : Leaving ℚ m) (limit : ℚ) : Prop :=
  ∃ length, leaving.length? = some length ∧ length ≤ limit

namespace Tableau

variable {m n : ℕ} (t : Tableau ℚ m n)

-- The candidate that is left after row `i`.
def challenge (q : Fin n) (best : Leaving ℚ m) (i : Fin m) : Leaving ℚ m :=
  match t.limit? q i with
  | some (length, atUpper) => if t.isShorter i length best then .row i atUpper length else best
  | none => best

-- The candidate before any row is looked at: the column's own other bound, if it has one.
def ownLimit (q : Fin n) : Leaving ℚ m :=
  match t.span.get q with
  | some s => .otherBound s
  | none => .never

theorem ownLimit_length? (q : Fin n) : (t.ownLimit q).length? = t.span.get q := by
  unfold ownLimit
  cases t.span.get q <;> rfl

theorem ownLimit_fits (q : Fin n) : t.Fits q (t.ownLimit q) := by
  unfold ownLimit
  cases hs : t.span.get q <;> exact hs

theorem challenge_fits {q : Fin n} {best : Leaving ℚ m} (h : t.Fits q best) (i : Fin m) :
    t.Fits q (t.challenge q best i) := by
  unfold challenge
  cases hl : t.limit? q i with
  | none => exact h
  | some limit =>
    obtain ⟨length, atUpper⟩ := limit
    simp only
    split_ifs
    · exact hl
    · exact h

theorem leaving_eq_foldl (q : Fin n) :
    t.leaving q = (List.finRange m).foldl (t.challenge q) (t.ownLimit q) := by
  refine congrArg₂ (List.foldl · · (List.finRange m)) ?_ ?_
  · funext best i
    unfold challenge
    cases t.limit? q i <;> rfl
  · unfold ownLimit
    cases t.span.get q <;> rfl

-- The lengths that could end the movement of column `q`.
def candidates (q : Fin n) : List ℚ :=
  (t.span.get q).toList ++ (List.finRange m).filterMap fun i => (t.limit? q i).map Prod.fst

-- Lengths that the test may take for equal differ by no more than `tol`.
def Sharp (q : Fin n) (tol : ℚ) : Prop :=
  ∀ a ∈ t.candidates q, ∀ b ∈ t.candidates q, a ≤ b + eps → a ≤ b + tol

theorem sharp_eps (q : Fin n) : t.Sharp q eps :=
  fun _ _ _ _ h => h

theorem mem_candidates_of_limit? {q : Fin n} {i : Fin m} {length : ℚ} {atUpper : Bool}
    (hl : t.limit? q i = some (length, atUpper)) : length ∈ t.candidates q :=
  List.mem_append_right _ (List.mem_filterMap.mpr ⟨i, List.mem_finRange i, by rw [hl]; rfl⟩)

theorem mem_candidates_of_span {q : Fin n} {s : ℚ} (hs : t.span.get q = some s) :
    s ∈ t.candidates q :=
  List.mem_append_left _ (Option.mem_toList.mpr hs)

theorem mem_candidates_of_fits {q : Fin n} {best : Leaving ℚ m} {length : ℚ} (h : t.Fits q best)
    (hlength : best.length? = some length) : length ∈ t.candidates q := by
  cases best with
  | never => exact absurd hlength (by simp [Leaving.length?])
  | otherBound s =>
    obtain rfl := Option.some.inj hlength
    exact t.mem_candidates_of_span h
  | row i atUpper s =>
    obtain rfl := Option.some.inj hlength
    exact t.mem_candidates_of_limit? h

section Challenge

variable {q : Fin n} {i : Fin m} {best : Leaving ℚ m} {tol length limit : ℚ} {atUpper : Bool}
  (hsharp : t.Sharp q tol) (htol : 0 ≤ tol)

include hsharp

-- A row that loses is shorter than the former candidate by no more than the tolerance.
theorem endsBy_of_not_isShorter (hl : t.limit? q i = some (length, atUpper)) (hfits : t.Fits q best)
    (h : t.isShorter i length best = false) : best.EndsBy (length + tol) := by
  have hnear : ∀ former, best.length? = some former → former ≤ length + eps →
      former ≤ length + tol := fun former hformer =>
    hsharp _ (t.mem_candidates_of_fits hfits hformer) _ (t.mem_candidates_of_limit? hl)
  cases best with
  | never => simp [isShorter] at h
  | otherBound former =>
    have hge := of_decide_eq_false h
    exact ⟨former, rfl, hnear former rfl (by linarith)⟩
  | row k side former =>
    have hge := of_decide_eq_false h
    push Not at hge
    exact ⟨former, rfl, hnear former rfl (by linarith [hge.1])⟩

include htol

-- And one that wins is longer than the former candidate by no more than that.
theorem length_le_of_isShorter (hl : t.limit? q i = some (length, atUpper)) (hfits : t.Fits q best)
    (h : t.isShorter i length best = true) (hbest : best.EndsBy limit) :
    length ≤ limit + tol := by
  have heps := eps_pos
  obtain ⟨former, hformer, hle⟩ := hbest
  have hnear : length ≤ former + eps → length ≤ former + tol :=
    hsharp _ (t.mem_candidates_of_limit? hl) _ (t.mem_candidates_of_fits hfits hformer)
  cases best with
  | never => exact absurd hformer (by simp [Leaving.length?])
  | otherBound former' =>
    obtain rfl := Option.some.inj hformer
    have hlt : length < former' - eps := of_decide_eq_true h
    linarith
  | row k side former' =>
    obtain rfl := Option.some.inj hformer
    simp only [isShorter, magnitude_eq_abs, Bool.decide_or, Bool.or_eq_true, decide_eq_true_eq] at h
    rcases h with hlt | ⟨htie, _⟩
    · linarith
    · linarith [hnear (by linarith [(abs_le.mp htie).2])]

theorem challenge_endsBy (hfits : t.Fits q best) (h : best.EndsBy limit) (i : Fin m) :
    (t.challenge q best i).EndsBy (limit + tol) := by
  have hsame : best.EndsBy (limit + tol) := by
    obtain ⟨former, hformer, hle⟩ := h
    exact ⟨former, hformer, by linarith⟩
  unfold challenge
  cases hl : t.limit? q i with
  | none => exact hsame
  | some found =>
    obtain ⟨length, atUpper⟩ := found
    simp only
    split_ifs with hs
    · exact ⟨length, rfl, t.length_le_of_isShorter hsharp htol hl hfits hs h⟩
    · exact hsame

theorem challenge_endsBy_own (hl : t.limit? q i = some (length, atUpper)) (hfits : t.Fits q best) :
    (t.challenge q best i).EndsBy (length + tol) := by
  unfold challenge
  rw [hl]
  simp only
  split_ifs with hs
  · exact ⟨length, rfl, by linarith⟩
  · exact t.endsBy_of_not_isShorter hsharp hl hfits (by simpa using hs)

theorem foldl_challenge_endsBy (rows : List (Fin m)) (hfits : t.Fits q best)
    (h : best.EndsBy limit) :
    (rows.foldl (t.challenge q) best).EndsBy (limit + rows.length * tol) := by
  induction rows generalizing best limit with
  | nil => simpa using h
  | cons i rest ih =>
    have hrest := ih (t.challenge_fits hfits i) (t.challenge_endsBy hsharp htol hfits h i)
    rw [List.foldl_cons, List.length_cons]
    push_cast
    rwa [add_one_mul, add_comm (_ * tol) tol, ← add_assoc]

theorem foldl_challenge_endsBy_of_mem {rows : List (Fin m)} (hi : i ∈ rows)
    (hl : t.limit? q i = some (length, atUpper)) (hfits : t.Fits q best) :
    (rows.foldl (t.challenge q) best).EndsBy (length + rows.length * tol) := by
  induction rows generalizing best with
  | nil => exact absurd hi List.not_mem_nil
  | cons k rest ih =>
    rw [List.foldl_cons]
    rcases List.mem_cons.mp hi with rfl | hrest
    · have hown := t.foldl_challenge_endsBy hsharp htol rest (t.challenge_fits hfits i)
        (t.challenge_endsBy_own hsharp htol hl hfits)
      rw [List.length_cons]
      push_cast
      rwa [add_one_mul, add_comm (_ * tol) tol, ← add_assoc]
    · obtain ⟨final, hfinal, hle⟩ := ih hrest (t.challenge_fits hfits k)
      refine ⟨final, hfinal, ?_⟩
      rw [List.length_cons]
      push_cast
      linarith

end Challenge

-- The movement is longer than no limit by more than `tol` for each row.
structure Accurate (q : Fin n) (tol length : ℚ) : Prop where
  span : ∀ s, t.span.get q = some s → length ≤ s + m * tol
  limit : ∀ i l atUpper, t.limit? q i = some (l, atUpper) → length ≤ l + m * tol

theorem accurate_of_leaving {q : Fin n} {tol length : ℚ} (hsharp : t.Sharp q tol) (htol : 0 ≤ tol)
    (h : (t.leaving q).length? = some length) : t.Accurate q tol length := by
  rw [leaving_eq_foldl] at h
  refine ⟨fun s hs => ?_, fun i l atUpper hl => ?_⟩
  · have hstart : (t.ownLimit q).EndsBy s := ⟨s, (t.ownLimit_length? q).trans hs, le_rfl⟩
    obtain ⟨final, hfinal, hle⟩ :=
      t.foldl_challenge_endsBy hsharp htol (List.finRange m) (t.ownLimit_fits q) hstart
    rw [h] at hfinal
    rw [List.length_finRange, ← Option.some.inj hfinal] at hle
    exact hle
  · obtain ⟨final, hfinal, hle⟩ :=
      t.foldl_challenge_endsBy_of_mem hsharp htol (List.mem_finRange i) hl (t.ownLimit_fits q)
    rw [h] at hfinal
    rw [List.length_finRange, ← Option.some.inj hfinal] at hle
    exact hle

-- What a move says about the length of its movement.
def Measured (tol : ℚ) : Move ℚ m n → Prop
  | .optimal => True
  | .unbounded _ => True
  | .flip q length => t.Accurate q tol length
  | .pivot _ q _ length => t.Accurate q tol length

theorem move_measured {bland : Bool} {tol : ℚ} (htol : 0 ≤ tol)
    (hsharp : ∀ q, t.entering? bland = some q → t.Sharp q tol) :
    t.Measured tol (t.move bland) := by
  unfold move
  cases he : t.entering? bland with
  | none => trivial
  | some q =>
    have hl : ∀ length, (t.leaving q).length? = some length → t.Accurate q tol length :=
      fun _ hlength => t.accurate_of_leaving (hsharp q he) htol hlength
    simp only
    cases hv : t.leaving q with
    | never => trivial
    | otherBound length => exact hl length (by rw [hv]; rfl)
    | row i atUpper length => exact hl length (by rw [hv]; rfl)

-- A movement that nothing ends meets no row's limit.
theorem limit?_eq_none_of_leaving {q : Fin n} (h : t.leaving q = .never) (i : Fin m) :
    t.limit? q i = none := by
  cases hl : t.limit? q i with
  | none => rfl
  | some limit =>
    obtain ⟨length, atUpper⟩ := limit
    obtain ⟨final, hfinal, _⟩ := t.foldl_challenge_endsBy_of_mem (t.sharp_eps q) eps_nonneg
      (List.mem_finRange i) hl (t.ownLimit_fits q)
    rw [← leaving_eq_foldl, h] at hfinal
    exact absurd hfinal (by simp [Leaving.length?])

-- Column `q` improves the objective, and nothing ends its movement.
structure Endless (q : Fin n) : Prop where
  enters : t.canEnter q = true
  span : t.span.get q = none
  rows : ∀ i, t.limit? q i = none

variable {t}

theorem endless_of_move {bland : Bool} {q : Fin n} (h : t.move bland = .unbounded q) :
    t.Endless q := by
  have hlegal := t.move_legal bland
  rw [h] at hlegal
  refine ⟨hlegal.1, hlegal.2, ?_⟩
  unfold move at h
  split at h
  · exact absurd h (by simp)
  · split at h
    · rename_i hl
      obtain rfl := Move.unbounded.inj h
      exact t.limit?_eq_none_of_leaving hl
    · exact absurd h (by simp)
    · exact absurd h (by simp)

-- A run without a bound stops at an endless column, which its last step leaves as it is.
theorem exists_endless_of_runFrom (iterations stalled : ℕ) (t : Tableau ℚ m n)
    (h : (t.runFrom iterations stalled).1 = .unbounded) :
    ∃ k < iterations, ∃ stalled' q, Goes k stalled t stalled' (t.runFrom iterations stalled).2 ∧
      (t.runFrom iterations stalled).2.iterate (stallLimit ≤ stalled') =
        (.unbounded, (t.runFrom iterations stalled).2) ∧
      (t.runFrom iterations stalled).2.Endless q := by
  obtain ⟨k, hk, hends⟩ := exists_concludes iterations stalled t (by rw [h]; decide)
  rw [h] at hends
  cases hends with
  | @unbounded stalled' u steps last =>
    obtain ⟨q, hm⟩ := exists_move_eq_unbounded last
    exact ⟨k, hk, stalled', q, steps, last, endless_of_move hm⟩

end Tableau

end LinearProgram
