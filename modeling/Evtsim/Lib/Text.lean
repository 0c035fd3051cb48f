import Mathlib.Data.Int.Notation
import Mathlib.Data.List.Forall2
import Mathlib.Data.List.TakeWhile
import Mathlib.Data.Nat.Init

/-!
# Lines and words

A stream of characters is read line by line (`nextLine`), and a line is trimmed at its ends (`trim`) and
cut into words (`words`). However a stream arrives, the lines that have been read are the first of its
`lines` (`lines_unlines_append`); and the words of a text are the words that it spells, whatever stands
between them (`words_eq_iff`). A table in padded columns is read back column by column
(`columns_flatten`).
-/

namespace Text

variable {α : Type}

/-! ## Lines -/

section

variable (nl : α)

/-- Lines with their ends. -/
def unlines (ls : List (List α)) : List α := ls.flatMap (· ++ [nl])

variable [DecidableEq α]

/-- The complete lines of a text: what follows the last `nl` is none. -/
def lines (l : List α) : List (List α) := (l.splitOnP (· = nl)).dropLast

/-- The first line and what is behind it. -/
def nextLine (l : List α) : Option (List α × List α) :=
  if nl ∈ l then some (l.takeWhile (· ≠ nl), (l.dropWhile (· ≠ nl)).tail) else none

variable {nl}

/-- The next line ends at the first line feed. -/
theorem nextLine_eq_some {l x r : List α} (h : nextLine nl l = some (x, r)) :
    l = x ++ nl :: r ∧ nl ∉ x := by
  unfold nextLine at h
  split at h
  case isFalse => exact nomatch h
  case isTrue hmem =>
    obtain ⟨rfl, rfl⟩ := Prod.mk.inj (Option.some.inj h)
    refine ⟨?_, fun hx => by simpa using List.mem_takeWhile_imp hx⟩
    have hne : l.dropWhile (· ≠ nl) ≠ [] := fun hnil => by
      simpa using List.dropWhile_eq_nil_iff.mp hnil nl hmem
    obtain ⟨c, r, hcr⟩ := List.exists_cons_of_ne_nil hne
    have hc : c = nl := by
      have hhead := List.head_dropWhile_not (· ≠ nl) hne
      simp only [hcr, List.head_cons] at hhead
      simpa using hhead
    have htail : nl :: (l.dropWhile (· ≠ nl)).tail = l.dropWhile (· ≠ nl) := by
      rw [hcr, hc, List.tail_cons]
    rw [htail, List.takeWhile_append_dropWhile]

/-- There is a next line exactly if there is a line feed. -/
theorem nextLine_isSome {l : List α} : (nextLine nl l).isSome = true ↔ nl ∈ l := by
  unfold nextLine
  split <;> simpa

theorem not_nl {l : List α} (h : nl ∉ l) : ∀ c ∈ l, decide (c = nl) = false :=
  fun _ hc => decide_eq_false fun hcn => h (hcn ▸ hc)

/-- The first line, and the lines behind its line feed. -/
theorem lines_append_cons {x : List α} (h : nl ∉ x) (r : List α) :
    lines nl (x ++ nl :: r) = x :: lines nl r := by
  unfold lines
  rw [List.splitOnP_append_cons_of_forall_mem (not_nl h) nl (decide_eq_true rfl),
    List.dropLast_cons_of_ne_nil (List.splitOnP_ne_nil _ _)]

/-- Lines that have been read are the first of the text. -/
theorem lines_unlines_append {ls : List (List α)} (h : ∀ x ∈ ls, nl ∉ x) (l : List α) :
    lines nl (unlines nl ls ++ l) = ls ++ lines nl l := by
  induction ls with
  | nil => rfl
  | cons x ls ih =>
    have hx : nl ∉ x := h x List.mem_cons_self
    rw [unlines, List.flatMap_cons, List.append_assoc, List.append_assoc, List.singleton_append,
      lines_append_cons hx]
    exact congrArg (x :: ·) (ih fun y hy => h y (List.mem_cons_of_mem x hy))

end

/-! ## Words -/

/-- The words between separators. -/
def words (sep : α → Bool) (l : List α) : List (List α) := (l.splitOnP sep).filter fun w => !w.isEmpty

/-- The text without the characters `p` at its ends. -/
def trim (p : α → Bool) (l : List α) : List α := ((l.dropWhile p).reverse.dropWhile p).reverse

variable {sep : α → Bool}

/-- A separator cuts words apart. -/
theorem words_append_cons (l r : List α) {c : α} (hc : sep c = true) :
    words sep (l ++ c :: r) = words sep l ++ words sep r := by
  unfold words
  rw [List.splitOnP_append_cons l r hc, List.filter_append]

/-- A separator at the start is skipped. -/
theorem words_cons {c : α} (hc : sep c = true) (l : List α) : words sep (c :: l) = words sep l :=
  words_append_cons [] l hc

/-- A text without separators is one word. -/
theorem words_single {w : List α} (hne : w ≠ []) (hw : ∀ c ∈ w, sep c = false) :
    words sep w = [w] := by
  unfold words
  rw [List.splitOnP_eq_singleton hw]
  cases w with
  | nil => exact absurd rfl hne
  | cons c w => rfl

/-- Which words a text spells. -/
inductive Spells (sep : α → Bool) : List (List α) → List α → Prop
  | nil : Spells sep [] []
  | skip {ws : List (List α)} {l : List α} {c : α} : sep c = true → Spells sep ws l → Spells sep ws (c :: l)
  | last {w : List α} : w ≠ [] → (∀ c ∈ w, sep c = false) → Spells sep [w] w
  | word {ws : List (List α)} {l w : List α} {c : α} : w ≠ [] → (∀ d ∈ w, sep d = false) → sep c = true →
      Spells sep ws l → Spells sep (w :: ws) (w ++ c :: l)

/-- What spells words is read as these words. -/
theorem words_of_spells {ws : List (List α)} {l : List α} (h : Spells sep ws l) : words sep l = ws := by
  induction h with
  | nil => rfl
  | skip hc _ ih => rw [words_cons hc, ih]
  | last hne hw => exact words_single hne hw
  | word hne hw hc _ ih => rw [words_append_cons _ _ hc, words_single hne hw, ih, List.singleton_append]

/-- A text spells its own words. -/
theorem spells_words (l : List α) : Spells sep (words sep l) l := by
  -- by the length of the text: a separator, or a word up to the next one
  induction hn : l.length using Nat.strong_induction_on generalizing l with
  | _ n ih =>
    cases l with
    | nil => exact .nil
    | cons c l =>
      by_cases hc : sep c = true
      · rw [words_cons hc]
        exact .skip hc (ih l.length (by rw [← hn]; exact Nat.lt_succ_self _) l rfl)
      · let w := (c :: l).takeWhile fun d => !sep d
        have hne : w ≠ [] := by
          simp only [w, List.takeWhile_cons, hc]
          exact List.cons_ne_nil _ _
        have hw : ∀ d ∈ w, sep d = false := fun d hd => by simpa using List.mem_takeWhile_imp hd
        have hsplit : w ++ (c :: l).dropWhile (fun d => !sep d) = c :: l :=
          List.takeWhile_append_dropWhile
        rcases hr : (c :: l).dropWhile fun d => !sep d with _ | ⟨d, r⟩
        · rw [hr, List.append_nil] at hsplit
          rw [← hsplit, words_single hne hw]
          exact .last hne hw
        · rw [hr] at hsplit
          have hd : sep d = true := by
            have hhead := List.head_dropWhile_not (fun d => !sep d) (l := c :: l)
              (by rw [hr]; exact List.cons_ne_nil _ _)
            simpa [hr] using hhead
          have hlen : r.length < n := by
            have hlength := congrArg List.length hsplit
            rw [List.length_append, List.length_cons] at hlength
            omega
          rw [← hsplit, words_append_cons _ _ hd, words_single hne hw, List.singleton_append]
          exact .word hne hw hd (ih _ hlen r rfl)

/-- **Words.** The words of a text are the words that it spells. -/
theorem words_eq_iff {ws : List (List α)} {l : List α} : words sep l = ws ↔ Spells sep ws l :=
  ⟨fun h => h ▸ spells_words l, words_of_spells⟩

/-! ## Columns -/

/-- A text filled up with `c` to a width. -/
def pad (c : α) (width : ℕ) (l : List α) : List α := l ++ List.replicate (width - l.length) c

/-- The text without the characters `c` at its end. -/
def dropEnd [DecidableEq α] (c : α) (l : List α) : List α := (l.reverse.dropWhile (· = c)).reverse

/-- A text cut at given widths. -/
def columns : List ℕ → List α → List (List α)
  | [], _ => []
  | width :: widths, l => l.take width :: columns widths (l.drop width)

/-- Padding reaches the width. -/
theorem length_pad (c : α) {width : ℕ} {l : List α} (h : l.length ≤ width) :
    (pad c width l).length = width := by
  rw [pad, List.length_append, List.length_replicate, Nat.add_sub_cancel' h]

/-- Padding can be taken off a text that does not end in the same character. -/
theorem dropEnd_pad [DecidableEq α] {c : α} {l : List α} (h : l.getLast? ≠ some c) (width : ℕ) :
    dropEnd c (pad c width l) = l := by
  have hback : l.reverse.dropWhile (· = c) = l.reverse := by
    rw [← List.head?_reverse] at h
    rcases hl : l.reverse with _ | ⟨d, r⟩
    · rfl
    · rw [hl] at h
      exact List.dropWhile_cons_of_neg (by simpa using fun hd : d = c => h (congrArg some hd))
  unfold dropEnd pad
  rw [List.reverse_append, List.reverse_replicate,
    List.dropWhile_append_of_pos fun d hd => decide_eq_true (List.eq_of_mem_replicate hd), hback,
    List.reverse_reverse]

/-- Cells are padded with nothing but `c`. -/
theorem mem_zipWith_pad {c a : α} {widths : List ℕ} {cells : List (List α)}
    (h : a ∈ (List.zipWith (pad c) widths cells).flatten) : a = c ∨ ∃ l ∈ cells, a ∈ l := by
  induction widths generalizing cells with
  | nil => exact nomatch h
  | cons width widths ih =>
    cases cells with
    | nil => exact nomatch h
    | cons l cells =>
      rw [List.zipWith_cons_cons, List.flatten_cons, pad] at h
      rcases List.mem_append.mp h with h | h
      · rcases List.mem_append.mp h with h | h
        · exact .inr ⟨l, List.mem_cons_self, h⟩
        · exact .inl (List.eq_of_mem_replicate h)
      · exact (ih h).imp_right fun ⟨l', hl', ha⟩ => ⟨l', List.mem_cons_of_mem l hl', ha⟩

/-- Padding can be taken off a whole row. -/
theorem map_dropEnd_zipWith_pad [DecidableEq α] {c : α} {widths : List ℕ} {cells : List (List α)}
    (hlen : widths.length = cells.length) (h : ∀ l ∈ cells, l.getLast? ≠ some c) :
    (List.zipWith (pad c) widths cells).map (dropEnd c) = cells := by
  induction widths generalizing cells with
  | nil => exact (List.length_eq_zero_iff.mp hlen.symm).symm
  | cons width widths ih =>
    cases cells with
    | nil => exact nomatch hlen
    | cons l cells =>
      rw [List.zipWith_cons_cons, List.map_cons, dropEnd_pad (h l List.mem_cons_self),
        ih (Nat.succ.inj hlen) fun l' hl' => h l' (List.mem_cons_of_mem l hl')]

/-- Padded cells are found again, whatever stands behind them. -/
theorem columns_flatten (c : α) {widths : List ℕ} {cells : List (List α)}
    (h : List.Forall₂ (fun width l => l.length ≤ width) widths cells) (r : List α) :
    columns widths ((List.zipWith (pad c) widths cells).flatten ++ r) =
      List.zipWith (pad c) widths cells := by
  induction h with
  | nil => rfl
  | cons hl _ ih =>
    have hlen := length_pad c hl
    rw [List.zipWith_cons_cons, List.flatten_cons, List.append_assoc, columns, List.take_left' hlen,
      List.drop_left' hlen, ih]

end Text
