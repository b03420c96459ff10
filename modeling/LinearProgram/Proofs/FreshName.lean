import LinearProgram.Proofs.Integrity
import Mathlib.Order.Bounds.Basic
import Mathlib.Data.Finset.Card
import Mathlib.Data.Finset.Image

namespace LinearProgram

section Names

variable (stem : String) (i quotes : ℕ)

theorem length_quotedName :
    (quotedName stem i quotes).length = (stem ++ toString i).length + quotes := by
  have hjoin : ∀ mark : String, mark.length = 1 →
      (String.join (List.replicate quotes mark)).length = quotes := by
    intro mark hmark
    simp [String.length_join, hmark]
  rw [quotedName, String.length_append, hjoin _ rfl]

theorem quotedName_injective : Function.Injective (quotedName stem i) := by
  intro p q h
  have hlength := congrArg String.length h
  rw [length_quotedName, length_quotedName] at hlength
  omega

theorem quotedName_zero : quotedName stem i 0 = stem ++ toString i := by
  simp [quotedName]

theorem quotedName_succ : quotedName stem i (quotes + 1) = quotedName stem i quotes ++ "'" := by
  have hjoin : ∀ mark : String, String.join (List.replicate (quotes + 1) mark) =
      String.join (List.replicate quotes mark) ++ mark := by
    intro mark
    rw [List.replicate_succ', String.join_append]
    simp
  simp only [quotedName, hjoin, String.append_assoc]

end Names

namespace Model

variable {α : Type} {m : Model α} {name last : String} {count : ℕ}

-- A variable of the model has the name.
def Takes (m : Model α) (name : String) : Prop :=
  ∃ v ∈ m.vars, v.name = name

-- The loop that puts one quote after the other at the end of a name as long as the name is taken.
-- It ends with the name `last`, after `count` quotes.
inductive Renames (m : Model α) : String → ℕ → String → Prop
  | new {name : String} (h : (m.find? name).isSome = false) : Renames m name 0 name
  | quote {name last : String} {count : ℕ} (h : (m.find? name).isSome = true)
      (rest : Renames m (name ++ "'") count last) : Renames m name (count + 1) last

-- The variable that the model appends next for the stem and the number.
def nextVariable (m : Model α) (stem : String) (i : ℕ) : Variable :=
  ⟨m.freshName stem i, m.vars.length⟩

def addVariables (m : Model α) (vs : List Variable) : Model α :=
  { m with vars := m.vars ++ vs }

@[simp] theorem addVariables_vars (m : Model α) (vs : List Variable) :
    (m.addVariables vs).vars = m.vars ++ vs := rfl

@[simp] theorem addVariables_nil (m : Model α) : m.addVariables [] = m := by
  simp [addVariables]

@[simp] theorem addVariables_addVariables (m : Model α) (us vs : List Variable) :
    (m.addVariables us).addVariables vs = m.addVariables (us ++ vs) := by
  simp [addVariables]

theorem find?_isSome_iff : (m.find? name).isSome = true ↔ m.Takes name := by
  simp [find?, Takes]

theorem find?_isNone_iff : (m.find? name).isNone = true ↔ ¬m.Takes name := by
  simp [find?, Takes]

theorem Renames.unique {count' : ℕ} {last' : String} (h : m.Renames name count last)
    (h' : m.Renames name count' last') : count' = count ∧ last' = last := by
  induction h generalizing count' with
  | new hnew =>
    cases h' with
    | new => exact ⟨rfl, rfl⟩
    | quote htaken => exact absurd htaken (by simp [hnew])
  | quote htaken _ ih =>
    cases h' with
    | new hnew => exact absurd htaken (by simp [hnew])
    | quote _ rest' =>
      obtain ⟨rfl, rfl⟩ := ih rest'
      exact ⟨rfl, rfl⟩

section FreshName

variable (m : Model α) (stem : String) (i : ℕ)

-- The names with up to as many quotes as there are variables are one more than the variables.
theorem exists_new_quotedName : ∃ quotes ≤ m.vars.length, ¬m.Takes (quotedName stem i quotes) := by
  by_contra hall
  push Not at hall
  have hsub : (Finset.range (m.vars.length + 1)).image (quotedName stem i) ⊆
      (m.vars.map (·.name)).toFinset := by
    intro name hname
    obtain ⟨quotes, hq, rfl⟩ := Finset.mem_image.mp hname
    obtain ⟨v, hv, he⟩ := hall quotes (Nat.lt_succ_iff.mp (Finset.mem_range.mp hq))
    exact List.mem_toFinset.mpr (List.mem_map.mpr ⟨v, hv, he⟩)
  have hcard := (Finset.card_le_card hsub).trans (List.toFinset_card_le _)
  rw [Finset.card_image_of_injective _ (quotedName_injective stem i), Finset.card_range,
    List.length_map] at hcard
  omega

theorem exists_freshName_eq : ∃ quotes ≤ m.vars.length,
    m.freshName stem i = quotedName stem i quotes ∧
      IsLeast {q | ¬m.Takes (quotedName stem i q)} quotes := by
  obtain ⟨found, hle, hnew⟩ := m.exists_new_quotedName stem i
  have hfinds : ((List.range (m.vars.length + 1)).find? fun quotes =>
      (m.find? (quotedName stem i quotes)).isNone).isSome = true :=
    List.find?_isSome.mpr
      ⟨found, List.mem_range.mpr (Nat.lt_succ_iff.mpr hle), find?_isNone_iff.mpr hnew⟩
  obtain ⟨quotes, hquotes⟩ := Option.isSome_iff_exists.mp hfinds
  have hname : m.freshName stem i = quotedName stem i quotes := by
    simp only [freshName, hquotes, Option.getD_some]
  obtain ⟨hfree, hmem, hbefore⟩ := List.find?_range_eq_some.mp hquotes
  refine ⟨quotes, Nat.lt_succ_iff.mp (List.mem_range.mp hmem), hname,
    find?_isNone_iff.mp hfree, fun q hq => ?_⟩
  by_contra hlt
  have htaken := hbefore q (not_le.mp hlt)
  rw [find?_isNone_iff.mpr hq] at htaken
  exact absurd htaken (by decide)

theorem freshName_new : ¬m.Takes (m.freshName stem i) := by
  obtain ⟨quotes, _, hname, hleast⟩ := m.exists_freshName_eq stem i
  rw [hname]
  exact hleast.1

-- From any name on the way, the loop puts the quotes that are missing.
theorem renames_quotedName {quotes : ℕ}
    (h : IsLeast {q | ¬m.Takes (quotedName stem i q)} quotes) (q missing : ℕ)
    (hq : q + missing = quotes) :
    m.Renames (quotedName stem i q) missing (quotedName stem i quotes) := by
  induction missing generalizing q with
  | zero =>
    obtain rfl : q = quotes := hq
    exact .new (Bool.eq_false_iff.mpr fun htaken => h.1 (find?_isSome_iff.mp htaken))
  | succ missing ih =>
    have htaken : m.Takes (quotedName stem i q) := by
      by_contra hnew
      have hle := h.2 hnew
      omega
    refine .quote (find?_isSome_iff.mpr htaken) ?_
    rw [← quotedName_succ]
    exact ih (q + 1) (by omega)

theorem renames_iff {quotes : ℕ} (hname : m.freshName stem i = quotedName stem i quotes)
    (hleast : IsLeast {q | ¬m.Takes (quotedName stem i q)} quotes) :
    m.Renames (stem ++ toString i) count name ↔ count = quotes ∧ name = m.freshName stem i := by
  have hloop := m.renames_quotedName stem i hleast 0 quotes (Nat.zero_add _)
  rw [quotedName_zero, ← hname] at hloop
  constructor
  · exact hloop.unique
  · rintro ⟨rfl, rfl⟩
    exact hloop

theorem createFresh_eq : m.createFresh stem i =
    .ok (m.nextVariable stem i, m.addVariables [m.nextVariable stem i]) := by
  have hnone : (m.find? (m.freshName stem i)).isSome = false :=
    Bool.eq_false_iff.mpr fun htaken => m.freshName_new stem i (find?_isSome_iff.mp htaken)
  unfold createFresh createVariable
  rw [hnone]
  rfl

-- Only the variables count for a new name.
theorem freshName_congr {w : Model α} (h : m.vars = w.vars) :
    m.freshName stem i = w.freshName stem i := by
  simp only [freshName, find?, h]

end FreshName

end Model

end LinearProgram
