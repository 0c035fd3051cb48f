import Mathlib.Logic.Basic
import Mathlib.Tactic.TypeStar

/-!
# Places

Things that are held under keys and move from key to key. A placement says which thing each key holds,
if any. `move` takes a thing from one key to another, over whatever was there; `Distinct` says that no
thing is held under two keys, which every move preserves.
-/

/-- Which thing each key holds. -/
abbrev Places (κ ι : Type*) := κ → Option ι

namespace Places

variable {κ ι : Type*} [DecidableEq κ]

/-- What `a` holds goes to `b`. -/
def move (a b : κ) (p : Places κ ι) : Places κ ι :=
  fun k => if k = b then p a else if k = a then none else p k

/-- No thing is held under two keys. -/
def Distinct (p : Places κ ι) : Prop := ∀ k k' i, p k = some i → p k' = some i → k = k'

variable {p : Places κ ι} {a b k : κ}

/-- What was at `a` is at `b`. -/
theorem move_target : move a b p b = p a := if_pos rfl

/-- Other places keep what they have. -/
theorem move_other (hb : k ≠ b) (ha : k ≠ a) : move a b p k = p k := by
  rw [move, if_neg hb, if_neg ha]

/-- What is held after a move was held before it: under the source, or where it still is. -/
theorem move_eq_some {i : ι} (h : move a b p k = some i) :
    k = b ∧ p a = some i ∨ k ≠ b ∧ k ≠ a ∧ p k = some i := by
  unfold move at h
  split at h
  · rename_i hk
    exact .inl ⟨hk, h⟩
  split at h
  · cases h
  · rename_i hb ha
    exact .inr ⟨hb, ha, h⟩

/-- A move puts nothing in two places. -/
theorem Distinct.move (h : Distinct p) : Distinct (move a b p) := by
  intro k k' i hk hk'
  rcases move_eq_some hk with ⟨rfl, ha⟩ | ⟨-, hka, hold⟩ <;>
    rcases move_eq_some hk' with ⟨rfl, ha'⟩ | ⟨-, hka', hold'⟩
  · rfl
  · exact absurd (h _ _ i hold' ha) hka'
  · exact absurd (h _ _ i hold ha') hka
  · exact h k k' i hold hold'

end Places
