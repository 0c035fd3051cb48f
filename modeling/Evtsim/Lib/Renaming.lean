import Mathlib.Data.List.Basic
import Mathlib.Data.Set.Insert

/-!
# Renaming

Names are in use or not, and requests to rename one to another stand in a list for good. A request that
finds its old name in use puts the new one in its place. `Sound` is what keeps this from going wrong as
long as new names are unused and unheard of: a name that has been given up does not come back, so that a
request is carried out once at most, and its new name is free then (`Sound.free`).
-/

namespace Renaming

variable {κ : Type*} {requests : List (κ × κ)} {used used' : Set κ} {p : κ × κ}

/-- No request asks for the name or for another one in its place. -/
def Unheard (requests : List (κ × κ)) (k : κ) : Prop := ∀ p ∈ requests, k ≠ p.1 ∧ k ≠ p.2

instance [DecidableEq κ] (requests : List (κ × κ)) (k : κ) : Decidable (Unheard requests k) :=
  inferInstanceAs (Decidable (∀ p ∈ requests, _))

/-- No two requests ask for one name; a request whose new name is in use has given up the old one; and a
name that has been given up has no way back. -/
structure Sound (requests : List (κ × κ)) (used : Set κ) : Prop where
  single : ∀ p ∈ requests, ∀ q ∈ requests, q.2 = p.2 → q = p
  done : ∀ p ∈ requests, p.2 ∈ used → p.1 ∉ used
  gone : ∀ p ∈ requests, ∀ q ∈ requests, q.2 = p.1 → p.1 ∉ used → q.1 ∉ used

/-- No renaming is sound. -/
theorem sound_nil (used : Set κ) : Sound [] used :=
  ⟨List.forall_mem_nil _, List.forall_mem_nil _, List.forall_mem_nil _⟩

/-- Names are given up. -/
theorem Sound.subset (h : Sound requests used) (hsub : used' ⊆ used) : Sound requests used' := by
  refine ⟨h.single, fun p hp hnew hold => h.done p hp (hsub hnew) (hsub hold), ?_⟩
  intro p hp q hq heq hold hq'
  by_cases hp' : p.1 ∈ used
  · exact h.done q hq (heq ▸ hp') (hsub hq')
  · exact h.gone p hp q hq heq hp' (hsub hq')

/-- A name comes into use that no request has heard of. -/
theorem Sound.use (h : Sound requests used) {k : κ} (hk : Unheard requests k) :
    Sound requests (insert k used) := by
  have hne : ∀ {k'}, k' ≠ k → (k' ∈ insert k used ↔ k' ∈ used) := fun hne =>
    Set.mem_insert_iff.trans (or_iff_right hne)
  have hold : ∀ p ∈ requests, p.1 ∈ insert k used ↔ p.1 ∈ used := fun p hp => hne (hk p hp).1.symm
  have hnew : ∀ p ∈ requests, p.2 ∈ insert k used ↔ p.2 ∈ used := fun p hp => hne (hk p hp).2.symm
  refine ⟨h.single, fun p hp => ?_, fun p hp q hq heq => ?_⟩
  · rw [hold p hp, hnew p hp]
    exact h.done p hp
  · rw [hold p hp, hold q hq]
    exact h.gone p hp q hq heq

/-- A name in use is to be renamed to one that is not, and that no request has heard of. -/
theorem Sound.request (h : Sound requests used) (hold : p.1 ∈ used) (hnew : p.2 ∉ used)
    (hp : Unheard requests p.2) : Sound (requests ++ [p]) used := by
  have hmem : ∀ {q}, q ∈ requests ++ [p] → q ∈ requests ∨ q = p := fun hq => by
    rwa [List.mem_append, List.mem_singleton] at hq
  refine ⟨fun q hq r hr heq => ?_, fun q hq hnew' => ?_, fun q hq r hr heq hq' => ?_⟩
  · rcases hmem hq with hq | hq <;> rcases hmem hr with hr | hr
    · exact h.single q hq r hr heq
    · rw [hr] at heq
      exact absurd heq (hp q hq).2
    · rw [hq] at heq
      exact absurd heq.symm (hp r hr).2
    · rw [hr, hq]
  · rcases hmem hq with hq | hq
    · exact h.done q hq hnew'
    · rw [hq] at hnew'
      exact absurd hnew' hnew
  · rcases hmem hq with hq | hq
    · rcases hmem hr with hr | hr
      · exact h.gone q hq r hr heq hq'
      · rw [hr] at heq
        exact absurd heq (hp q hq).1
    · rw [hq] at hq'
      exact absurd hold hq'

/-- The new name of a request that finds the old one is free, and no other request is about it. -/
theorem Sound.free (h : Sound requests used) (hp : p ∈ requests) (hold : p.1 ∈ used) :
    p.2 ∉ used ∧ ∀ q ∈ requests, q.1 ≠ p.2 := by
  have hnew : p.2 ∉ used := fun hnew => h.done p hp hnew hold
  refine ⟨hnew, fun q hq heq => ?_⟩
  exact h.gone q hq p hp heq.symm (heq ▸ hnew) hold

/-- The request is carried out. -/
theorem Sound.rename (h : Sound requests used) (hp : p ∈ requests) (hold : p.1 ∈ used) :
    Sound requests (insert p.2 (used \ {p.1})) := by
  obtain ⟨hfree, hother⟩ := h.free hp hold
  have hleft : Sound requests (used \ {p.1}) := h.subset fun _ hk => hk.1
  have hmem : ∀ q ∈ requests, q.1 ∈ insert p.2 (used \ {p.1}) ↔ q.1 ∈ used \ {p.1} := fun q hq =>
    Set.mem_insert_iff.trans (or_iff_right (hother q hq))
  refine ⟨h.single, fun q hq hnew => ?_, fun q hq r hr heq => ?_⟩
  · rw [hmem q hq]
    rcases Set.mem_insert_iff.mp hnew with heq | hnew
    · rw [h.single p hp q hq heq]
      exact fun hself => hself.2 rfl
    · exact hleft.done q hq hnew
  · rw [hmem q hq, hmem r hr]
    exact hleft.gone q hq r hr heq

end Renaming
