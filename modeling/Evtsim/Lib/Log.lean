import Evtsim.Lib.Machine
import Mathlib.Data.List.Basic

/-!
# Logs that only grow

`Appends Q l l'` says that a log has grown from `l` to `l'` by entries that all have the property `Q`.
It composes along runs (`appends_run`), and what is read off a log entry by entry does not see entries
that it skips (`Appends.filterMap`).

`oncePer_concat` says when a log keeps to one entry of a kind between two of another, `perm_added_run_iff`
when a run adds what is due for its events. Where the events of a run have names, `attributed` puts
every new entry under the name of the event that adds it: under a name that occurs once stands what that
one step adds (`under_attributed`). `Told` follows someone who hears every new entry (`told_run`).
-/

namespace Log

open Machine

variable {α β σ ε : Type*} {Q R : α → Prop} {l l' l'' : List α}

/-- The log grows by entries with `Q`. -/
def Appends (Q : α → Prop) (l l' : List α) : Prop := ∃ ms, l' = l ++ ms ∧ ∀ m ∈ ms, Q m

theorem Appends.refl (Q : α → Prop) (l : List α) : Appends Q l l :=
  ⟨[], (List.append_nil l).symm, List.forall_mem_nil Q⟩

theorem Appends.of_eq (h : l' = l) : Appends Q l l' := h ▸ Appends.refl Q l

theorem appends_singleton {m : α} (h : Q m) : Appends Q l (l ++ [m]) :=
  ⟨[m], rfl, List.forall_mem_singleton.mpr h⟩

/-- The log grows twice. -/
theorem Appends.trans (h : Appends Q l l') (h' : Appends Q l' l'') : Appends Q l l'' := by
  obtain ⟨ms, rfl, hms⟩ := h
  obtain ⟨ns, rfl, hns⟩ := h'
  exact ⟨ms ++ ns, List.append_assoc .., List.forall_mem_append.mpr ⟨hms, hns⟩⟩

theorem Appends.imp (h : Appends Q l l') (hQR : ∀ m, Q m → R m) : Appends R l l' := by
  obtain ⟨ms, hl, hms⟩ := h
  exact ⟨ms, hl, fun m hm => hQR m (hms m hm)⟩

/-- What all entries had and all new entries have, all entries have. -/
theorem Appends.forall_mem (h : Appends Q l l') (hl : ∀ m ∈ l, Q m) : ∀ m ∈ l', Q m := by
  obtain ⟨ms, rfl, hms⟩ := h
  exact List.forall_mem_append.mpr ⟨hl, hms⟩

/-- A reading that skips the new entries reads the same. -/
theorem Appends.filterMap (h : Appends Q l l') {f : α → Option β} (hf : ∀ m, Q m → f m = none) :
    l'.filterMap f = l.filterMap f := by
  obtain ⟨ms, rfl, hms⟩ := h
  have hnew : ms.filterMap f = [] := by
    rw [List.filterMap_eq_nil_iff]
    intro m hm
    exact hf m (hms m hm)
  rw [List.filterMap_append, hnew, List.append_nil]

/-- A count that takes in none of the new entries. -/
theorem Appends.countP (h : Appends Q l l') {f : α → Bool} (hf : ∀ m, Q m → f m = false) :
    l'.countP f = l.countP f := by
  obtain ⟨ms, rfl, hms⟩ := h
  have hnone : ms.countP f = 0 := by
    rw [List.countP_eq_zero]
    intro m hm
    rw [hf m (hms m hm)]
    exact Bool.false_ne_true
  rw [List.countP_append, hnone, Nat.add_zero]

/-- A fold that the new entries do not move. -/
theorem Appends.foldl (h : Appends Q l l') {f : β → α → β} (hf : ∀ b m, Q m → f b m = b) (b : β) :
    l'.foldl f b = l.foldl f b := by
  obtain ⟨ms, rfl, hms⟩ := h
  rw [List.foldl_append]
  generalize l.foldl f b = c
  induction ms with
  | nil => rfl
  | cons m ms ih =>
    rw [List.foldl_cons, hf c m (hms m List.mem_cons_self)]
    exact ih fun m' hm' => hms m' (List.mem_cons_of_mem m hm')

/-- A run grows the log by what its steps append. -/
theorem appends_run {f : σ → ε → σ} {g : σ → List α}
    (hstep : ∀ s e, Appends Q (g s) (g (f s e))) (s : σ) (es : List ε) :
    Appends Q (g s) (g (run f s es)) := by
  induction es generalizing s with
  | nil => exact Appends.refl Q _
  | cons e es ih => exact (hstep s e).trans (ih (f s e))

/-- So do iterated steps of one kind. -/
theorem appends_iterate {f : σ → σ} {g : σ → List α} (hstep : ∀ s, Appends Q (g s) (g (f s))) (s : σ)
    (n : ℕ) : Appends Q (g s) (g (f^[n] s)) := by
  induction n with
  | zero => exact Appends.refl Q _
  | succ n ih =>
    rw [Function.iterate_succ_apply']
    exact ih.trans (hstep _)

/-! ## Listeners -/

section

variable {τ : Type*} {hear : τ → α → τ} {P P' : τ → Prop} {v : τ}

/-- A listener who stands at `v` and hears the new entries of the log gets to where `P` holds. -/
def Told (hear : τ → α → τ) (P : τ → Prop) (l l' : List α) (v : τ) : Prop :=
  ∃ ms, l' = l ++ ms ∧ P (ms.foldl hear v)

/-- Nothing new is told. -/
theorem Told.of_eq (h : l' = l) (hP : P v) : Told hear P l l' v :=
  ⟨[], h.trans (List.append_nil l).symm, hP⟩

/-- One entry is told. -/
theorem told_singleton {m : α} (hP : P (hear v m)) : Told hear P l (l ++ [m]) v := ⟨[m], rfl, hP⟩

/-- Entries that the listener does not take in. -/
theorem Appends.told (h : Appends Q l l') (hear_eq : ∀ m, Q m → ∀ v, hear v m = v) (hP : P v) :
    Told hear P l l' v := by
  obtain ⟨ms, hl, hms⟩ := h
  have hsame : ∀ ms : List α, (∀ m ∈ ms, Q m) → ms.foldl hear v = v := by
    intro ms hms
    induction ms with
    | nil => rfl
    | cons m ms ih =>
      rw [List.foldl_cons, hear_eq m (hms m List.mem_cons_self)]
      exact ih fun m' hm' => hms m' (List.mem_cons_of_mem m hm')
  exact ⟨ms, hl, (hsame ms hms).symm ▸ hP⟩

/-- What is told first is heard first. -/
theorem Told.trans (h : Told hear P l l' v) (h' : ∀ v', P v' → Told hear P' l' l'' v') :
    Told hear P' l l'' v := by
  obtain ⟨ms, rfl, hms⟩ := h
  obtain ⟨ns, rfl, hns⟩ := h' _ hms
  exact ⟨ms ++ ns, List.append_assoc .., by rwa [List.foldl_append]⟩

theorem Told.imp (h : Told hear P l l' v) (hPP' : ∀ v', P v' → P' v') : Told hear P' l l' v := by
  obtain ⟨ms, hl, hms⟩ := h
  exact ⟨ms, hl, hPP' _ hms⟩

/-- What every step keeps true of state and listener, a run keeps true. -/
theorem told_run {f : σ → ε → σ} {g : σ → List α} {I : σ → τ → Prop} (es : List ε)
    (hstep : ∀ s v, I s v → ∀ e ∈ es, Told hear (I (f s e)) (g s) (g (f s e)) v) {s : σ} (h : I s v) :
    Told hear (I (run f s es)) (g s) (g (run f s es)) v := by
  induction es generalizing s v with
  | nil => exact Told.of_eq rfl h
  | cons e es ih =>
    refine (hstep s v h e List.mem_cons_self).trans fun v' hv' => ?_
    exact ih (fun s v h e he => hstep s v h e (List.mem_cons_of_mem _ he)) hv'

end

/-! ## The entries about one name -/

section

variable {ι : Type*} [DecidableEq ι] {about : α → Option ι} {i : ι}

/-- The entries that are about `i`. -/
def mentioning (about : α → Option ι) (i : ι) (l : List α) : List α :=
  l.filter fun m => about m = some i

/-- The entries about a name in two logs behind each other. -/
theorem mentioning_append (l l' : List α) :
    mentioning about i (l ++ l') = mentioning about i l ++ mentioning about i l' :=
  List.filter_append ..

theorem mentioning_cons_of_eq {m : α} (h : about m = some i) (l : List α) :
    mentioning about i (m :: l) = m :: mentioning about i l :=
  List.filter_cons_of_pos (decide_eq_true h)

theorem mentioning_cons_of_ne {m : α} (h : about m ≠ some i) (l : List α) :
    mentioning about i (m :: l) = mentioning about i l :=
  List.filter_cons_of_neg (by rwa [decide_eq_true_eq])

theorem mentioning_concat_of_eq {m : α} (h : about m = some i) (l : List α) :
    mentioning about i (l ++ [m]) = mentioning about i l ++ [m] := by
  rw [mentioning_append, mentioning_cons_of_eq h]
  rfl

theorem mentioning_concat_of_ne {m : α} (h : about m ≠ some i) (l : List α) :
    mentioning about i (l ++ [m]) = mentioning about i l := by
  rw [mentioning_append, mentioning_cons_of_ne h]
  exact List.append_nil _

/-- New entries about others. -/
theorem Appends.mentioning (h : Appends Q l l') (hQ : ∀ m, Q m → about m ≠ some i) :
    mentioning about i l' = mentioning about i l := by
  obtain ⟨ms, rfl, hms⟩ := h
  have hnone : Log.mentioning about i ms = [] := by
    unfold Log.mentioning
    rw [List.filter_eq_nil_iff]
    intro m hm
    rw [decide_eq_true_eq]
    exact hQ m (hms m hm)
  rw [mentioning_append, hnone, List.append_nil]

end

/-! ## Episodes

An entry `a` opens an episode, which lasts until the next `a`. -/

section

variable [DecidableEq α] {a b x : α}

/-- The entries behind the last `a`, the latest first. -/
def behind (a : α) (l : List α) : List α := l.reverse.takeWhile (· ≠ a)

/-- There has been a `b` in the episode that `a` has opened last. -/
def Since (a b : α) (l : List α) : Prop := a ∈ l ∧ b ∈ behind a l

instance (a b : α) (l : List α) : Decidable (Since a b l) := inferInstanceAs (Decidable (_ ∧ _))

/-- There is at most one `b` between one `a` and the next, or the end. -/
def OncePer (a b : α) (l : List α) : Prop :=
  ∀ pre seg post, l = pre ++ a :: (seg ++ post) → a ∉ seg → seg.count b ≤ 1

/-- Behind a new `a` stands nothing. -/
theorem behind_concat_self : behind a (l ++ [a]) = [] := by
  simp [behind]

/-- An entry other than `a` joins those behind the last `a`. -/
theorem behind_concat_of_ne (hx : x ≠ a) : behind a (l ++ [x]) = x :: behind a l := by
  simp [behind, hx]

/-- What stands behind the last `a` is the rest of the log if there is no `a` in it. -/
theorem behind_append_cons {pre seg : List α} (hseg : a ∉ seg) :
    behind a (pre ++ a :: seg) = seg.reverse := by
  have hpass : ∀ y ∈ seg.reverse, decide (y ≠ a) = true := by
    intro y hy
    simp only [decide_eq_true_eq]
    rintro rfl
    exact hseg (List.mem_reverse.mp hy)
  unfold behind
  rw [List.reverse_append, List.reverse_cons, List.append_assoc, List.takeWhile_append_of_pos hpass]
  simp

theorem since_nil : ¬ Since a b [] := fun h => absurd h.1 List.not_mem_nil

/-- An `a` opens an episode in which there has been no `b`. -/
theorem not_since_concat : ¬ Since a b (l ++ [a]) := by
  rintro ⟨-, hb⟩
  rw [behind_concat_self] at hb
  exact absurd hb List.not_mem_nil

/-- Other entries do not change what has come since. -/
theorem since_concat_of_ne (ha : x ≠ a) (hb : x ≠ b) : Since a b (l ++ [x]) ↔ Since a b l := by
  simp [Since, behind_concat_of_ne ha, Ne.symm ha, Ne.symm hb]

theorem oncePer_nil : OncePer a b [] := by
  intro pre seg post h
  simp at h

/-- **Once per episode**, entry by entry: a `b` comes only if there has been none since the last `a`. -/
theorem oncePer_concat (h : OncePer a b l) (hx : x = b → ¬ Since a b l) : OncePer a b (l ++ [x]) := by
  intro pre seg post heq hseg
  rcases List.eq_nil_or_concat post with rfl | ⟨post, y, rfl⟩
  · rcases List.eq_nil_or_concat seg with rfl | ⟨seg, y, rfl⟩
    · simp
    · -- the new entry ends the open episode
      rw [List.concat_eq_append] at heq hseg ⊢
      rw [List.append_nil, ← List.cons_append, ← List.append_assoc] at heq
      obtain ⟨hl, hy⟩ := List.append_inj' heq rfl
      obtain rfl : x = y := List.singleton_inj.mp hy
      rw [List.mem_append, not_or] at hseg
      have hcount := h pre seg [] (by rw [hl, List.append_nil]) hseg.1
      rw [List.count_append, List.count_singleton]
      split
      · rename_i hxb
        have hnot := hx (by simpa using hxb)
        have hnone : b ∉ seg := by
          intro hb
          apply hnot
          rw [hl]
          refine ⟨by simp, ?_⟩
          rw [behind_append_cons hseg.1, List.mem_reverse]
          exact hb
        have hzero := List.count_eq_zero_of_not_mem hnone
        omega
      · omega
  · -- the episode has ended before
    rw [List.concat_eq_append, ← List.append_assoc, ← List.cons_append, ← List.append_assoc] at heq
    obtain ⟨hl, -⟩ := List.append_inj' heq rfl
    exact h pre seg post hl hseg

end

/-! ## Attribution -/

/-- What the grown log `l'` has beyond `l`. -/
def added (l l' : List α) : List α := l'.drop l.length

@[simp] theorem added_self (l : List α) : added l l = [] := List.drop_length

/-- What is appended is what is new. -/
@[simp] theorem added_append (l ms : List α) : added l (l ++ ms) = ms := List.drop_left

/-- What a hearer makes of the new entries. -/
theorem Told.added {τ : Type*} {hear : τ → α → τ} {P : τ → Prop} {v : τ} (h : Told hear P l l' v) :
    P ((added l l').foldl hear v) := by
  obtain ⟨ms, rfl, hms⟩ := h
  rwa [added_append]

/-- What a stretch of the log adds, the whole adds. -/
theorem added_subset {k : List α} {S : α → Prop} (h : Appends Q l l') (h' : Appends R l' l'')
    (h'' : Appends S l'' k) : added l' l'' ⊆ added l k := by
  obtain ⟨ms, rfl, -⟩ := h
  obtain ⟨ns, rfl, -⟩ := h'
  obtain ⟨rs, rfl, -⟩ := h''
  rw [added_append, List.append_assoc, List.append_assoc, added_append]
  exact fun m hm => List.mem_append_right ms (List.mem_append_left rs hm)

/-- What a run adds, one of its steps adds. -/
theorem exists_of_mem_added_run {f : σ → ε → σ} {g : σ → List α}
    (hstep : ∀ s e, Appends Q (g s) (g (f s e))) {s : σ} {es : List ε} {m : α}
    (hm : m ∈ added (g s) (g (run f s es))) :
    ∃ pre e post, es = pre ++ e :: post ∧ m ∈ added (g (run f s pre)) (g (f (run f s pre) e)) := by
  induction es generalizing s with
  | nil =>
    rw [run_nil, added_self] at hm
    exact absurd hm List.not_mem_nil
  | cons e es ih =>
    obtain ⟨ms, hms, -⟩ := hstep s e
    obtain ⟨ns, hns, -⟩ := appends_run hstep (f s e) es
    rw [run_cons, hns, hms, List.append_assoc, added_append, List.mem_append] at hm
    rcases hm with hm | hm
    · refine ⟨[], e, es, rfl, ?_⟩
      rw [run_nil, hms, added_append]
      exact hm
    · obtain ⟨pre, e', post, rfl, hsent⟩ := ih (s := f s e) (by rw [hns, added_append]; exact hm)
      exact ⟨e :: pre, e', post, rfl, hsent⟩

/-- What a step of a run adds, the run adds. -/
theorem added_step_subset {f : σ → ε → σ} {g : σ → List α}
    (hstep : ∀ s e, Appends Q (g s) (g (f s e))) (s : σ) (pre : List ε) (e : ε) (post : List ε) :
    added (g (run f s pre)) (g (f (run f s pre) e)) ⊆ added (g s) (g (run f s (pre ++ e :: post))) := by
  rw [run_append, run_cons]
  exact added_subset (appends_run hstep s pre) (hstep _ e) (appends_run hstep _ post)

/-- What a run adds, step by step. -/
theorem added_run_cons {f : σ → ε → σ} {g : σ → List α}
    (hstep : ∀ s e, Appends Q (g s) (g (f s e))) (s : σ) (e : ε) (es : List ε) :
    added (g s) (g (run f s (e :: es))) =
      added (g s) (g (f s e)) ++ added (g (f s e)) (g (run f (f s e) es)) := by
  obtain ⟨ms, hms, -⟩ := hstep s e
  obtain ⟨ns, hns, -⟩ := appends_run hstep (f s e) es
  rw [run_cons, hns, added_append, hms, List.append_assoc, added_append, added_append]

/-- A counter that every step moves by the number of its entries counts those of the run. -/
theorem count_run {f : σ → ε → σ} {g : σ → List α} {c : σ → ℕ}
    (hstep : ∀ s e, Appends Q (g s) (g (f s e)))
    (hc : ∀ s e, c (f s e) = c s + (added (g s) (g (f s e))).length) (s : σ) (es : List ε) :
    c (run f s es) = c s + (added (g s) (g (run f s es))).length := by
  induction es generalizing s with
  | nil => simp
  | cons e es ih =>
    rw [added_run_cons hstep, List.length_append, run_cons, ih, hc]
    omega

/-! ## Dues

Every event of a run calls for certain entries: `d` says what is due for it, in terms of a reading `r` of
the entries. No step adds more by weight than is due. Then the run adds in all what is due, in any order,
only if every step does. -/

section

variable {f : σ → ε → σ} {g : σ → List α} {r : α → β} {d : ε → List β} {w : β → ℕ}
  {I : σ → Prop}

/-- The weight of a list of entries. -/
def weight (w : β → ℕ) : List β → ℕ
  | [] => 0
  | b :: l => w b + weight w l

@[simp] theorem weight_nil : weight w [] = 0 := rfl

@[simp] theorem weight_cons (b : β) (l : List β) : weight w (b :: l) = w b + weight w l := rfl

/-- Weights of two lists add up. -/
theorem weight_append (l l' : List β) : weight w (l ++ l') = weight w l + weight w l' := by
  induction l with
  | nil => simp
  | cons b l ih => simp [ih, Nat.add_assoc]

/-- The order does not matter to the weight. -/
theorem weight_perm {l l' : List β} (h : l.Perm l') : weight w l = weight w l' := by
  induction h with
  | nil => rfl
  | cons b _ ih => simp [ih]
  | swap b c l => simp only [weight_cons]; omega
  | trans _ _ ih ih' => exact ih.trans ih'

/-- What weighs nothing but under a name weighs as much as what is under the name. -/
theorem weight_mentioning {ι : Type*} [DecidableEq ι] {about : β → Option ι} {i : ι}
    (hw : ∀ b, about b ≠ some i → w b = 0) (l : List β) :
    weight w (mentioning about i l) = weight w l := by
  induction l with
  | nil => rfl
  | cons b l ih =>
    by_cases hb : about b = some i
    · rw [mentioning_cons_of_eq hb, weight_cons, weight_cons, ih]
    · rw [mentioning_cons_of_ne hb, weight_cons, hw b hb, Nat.zero_add, ih]

/-- A step adds what is due. -/
def Pays (f : σ → ε → σ) (g : σ → List α) (r : α → β) (d : ε → List β) (s : σ) (e : ε) : Prop :=
  (added (g s) (g (f s e))).map r = d e

/-- A run whose steps all pay adds what is due, in order. -/
theorem added_run_of_pays (hstep : ∀ s e, Appends Q (g s) (g (f s e))) {s : σ} {es : List ε}
    (h : Along f (Pays f g r d) s es) :
    (added (g s) (g (run f s es))).map r = es.flatMap d := by
  induction es generalizing s with
  | nil => simp
  | cons e es ih =>
    rw [added_run_cons hstep, List.map_append, List.flatMap_cons, ih h.2]
    congr 1
    exact h.1

variable (hstep : ∀ s e, Appends Q (g s) (g (f s e))) (hI : ∀ s e, I s → I (f s e))
  (hle : ∀ s e, I s → weight w ((added (g s) (g (f s e))).map r) ≤ weight w (d e))

include hstep hI hle

/-- A run adds no more by weight than is due in all. -/
theorem weight_added_run_le {s : σ} (hs : I s) (es : List ε) :
    weight w ((added (g s) (g (run f s es))).map r) ≤ weight w (es.flatMap d) := by
  induction es generalizing s with
  | nil => simp
  | cons e es ih =>
    have hrest := ih (hI s e hs)
    have hfirst := hle s e hs
    rw [added_run_cons hstep, List.map_append, List.flatMap_cons, weight_append, weight_append]
    omega

/-- A run that reaches the whole weight pays at every step. -/
theorem along_pays_of_weight
    (heq : ∀ s e, I s → weight w ((added (g s) (g (f s e))).map r) = weight w (d e) →
      Pays f g r d s e)
    {s : σ} {es : List ε} (hs : I s)
    (h : weight w (es.flatMap d) ≤ weight w ((added (g s) (g (run f s es))).map r)) :
    Along f (Pays f g r d) s es := by
  induction es generalizing s with
  | nil => trivial
  | cons e es ih =>
    -- neither the first step nor the rest can make up for what the other leaves out
    have hrest := weight_added_run_le hstep hI hle (hI s e hs) es
    have hfirst := hle s e hs
    rw [added_run_cons hstep, List.map_append, List.flatMap_cons, weight_append, weight_append] at h
    refine ⟨heq s e hs (by omega), ih (hI s e hs) (by omega)⟩

/-- **Dues.** A run over the events in some order adds what is due for them, in any order, exactly when
every step pays; `C` says when a step does. -/
theorem perm_added_run_iff {C : σ → ε → Prop}
    (heq : ∀ s e, I s → weight w ((added (g s) (g (f s e))).map r) = weight w (d e) →
      Pays f g r d s e)
    (hC : ∀ s e, I s → (Pays f g r d s e ↔ C s e)) {s : σ} (hs : I s) {es es' : List ε}
    (hes : es.Perm es') :
    ((added (g s) (g (run f s es))).map r).Perm (es'.flatMap d) ↔ Along f C s es := by
  have hsame : Along f (Pays f g r d) s es ↔ Along f C s es :=
    along_congr (K := fun _ _ => True) (fun s e hs _ _ => hI s e hs) (fun s e hs _ => hC s e hs) hs
      (along_of_forall fun _ _ => trivial)
  rw [← hsame]
  constructor
  · intro h
    apply along_pays_of_weight hstep hI hle heq hs
    exact Nat.le_of_eq (weight_perm (h.trans (hes.flatMap_right d).symm)).symm
  · intro h
    rw [added_run_of_pays hstep h]
    exact hes.flatMap_right d

end

/-! ## Entries with a number -/

/-- In a log in the order of its tags those below `n` stand before those with `n`. -/
theorem filter_lt_append_filter_eq {l : List (ℕ × α)} {n : ℕ}
    (hl : (l.map Prod.fst).Pairwise (· ≤ ·)) (hn : ∀ p ∈ l, p.1 ≤ n) :
    (l.filter fun p => p.1 < n) ++ (l.filter fun p => p.1 = n) = l := by
  induction l with
  | nil => rfl
  | cons p l ih =>
    rw [List.map_cons, List.pairwise_cons] at hl
    have hrest := ih hl.2 fun q hq => hn q (List.mem_cons_of_mem p hq)
    by_cases hp : p.1 < n
    · rw [List.filter_cons_of_pos (by simpa using hp),
        List.filter_cons_of_neg (by simpa using Nat.ne_of_lt hp), List.cons_append, hrest]
    · have heq : p.1 = n := Nat.le_antisymm (hn p List.mem_cons_self) (Nat.le_of_not_lt hp)
      have hnone : (l.filter fun q => q.1 < n) = [] := by
        rw [List.filter_eq_nil_iff]
        intro q hq
        have hle := hl.1 q.1 (List.mem_map_of_mem hq)
        rw [decide_eq_true_eq]
        omega
      rw [hnone, List.nil_append] at hrest
      rw [List.filter_cons_of_neg (by simpa using hp), List.filter_cons_of_pos (by simpa using heq),
        hnone, hrest, List.nil_append]

/-- A log in the order of its tags is put together from the parts with each tag. -/
theorem flatMap_tags {l : List (ℕ × α)} {n : ℕ} (hl : (l.map Prod.fst).Pairwise (· ≤ ·))
    (hn : ∀ p ∈ l, p.1 < n) : ((List.range n).flatMap fun i => l.filter fun p => p.1 = i) = l := by
  induction n generalizing l with
  | zero =>
    have hnil : l = [] := List.eq_nil_iff_forall_not_mem.mpr fun p hp =>
      absurd (hn p hp) (Nat.not_lt_zero _)
    rw [hnil]
    rfl
  | succ n ih =>
    have hlow := ih (l := l.filter fun p => p.1 < n) (hl.sublist (List.filter_sublist.map Prod.fst))
      fun p hp => of_decide_eq_true (List.mem_filter.mp hp).2
    have hsame : ∀ i ∈ List.range n, ((l.filter fun p => p.1 < n).filter fun p => p.1 = i) =
        l.filter fun p => p.1 = i := by
      intro i hi
      rw [List.filter_filter]
      refine List.filter_congr fun p _ => ?_
      have hlt := List.mem_range.mp hi
      by_cases hp : p.1 = i
      · simp [hp, hlt]
      · simp [hp]
    rw [List.flatMap_congr hsame] at hlow
    rw [List.range_succ, List.flatMap_append, hlow, List.flatMap_cons, List.flatMap_nil, List.append_nil]
    exact filter_lt_append_filter_eq hl fun p hp => Nat.le_of_lt_succ (hn p hp)

/-- The new entries about one name. -/
theorem Appends.mentioning_added {ι : Type*} [DecidableEq ι] {about : α → Option ι} {i : ι} {ms : List α}
    (h : Appends Q l l') (hms : Log.mentioning about i l' = Log.mentioning about i l ++ ms) :
    Log.mentioning about i (added l l') = ms := by
  obtain ⟨new, rfl, -⟩ := h
  rw [mentioning_append] at hms
  rw [added_append]
  exact List.append_cancel_left hms

variable {ι : Type*}

/-- The entries that a run over named events adds, under the names of their events. -/
def attributed (f : σ → ε → σ) (g : σ → List α) : σ → List (ι × ε) → List (ι × α)
  | _, [] => []
  | s, (i, e) :: qs => (added (g s) (g (f s e))).map (Prod.mk i) ++ attributed f g (f s e) qs

/-- The names in a list of entries that all stand under `i`. -/
theorem mem_fst_map_mk {i j : ι} {ms : List α} :
    j ∈ (ms.map (Prod.mk i)).map Prod.fst ↔ j = i ∧ ms ≠ [] := by
  rw [List.map_map]
  show j ∈ ms.map (fun _ => i) ↔ _
  rw [List.mem_map]
  constructor
  · rintro ⟨m, hm, rfl⟩
    exact ⟨rfl, List.ne_nil_of_mem hm⟩
  · rintro ⟨rfl, hms⟩
    obtain ⟨m, hm⟩ := List.exists_mem_of_ne_nil ms hms
    exact ⟨m, hm, rfl⟩

/-- Every entry stands under the name of an event. -/
theorem fst_mem_of_mem_attributed {f : σ → ε → σ} {g : σ → List α} {s : σ} {qs : List (ι × ε)}
    {q : ι × α} (h : q ∈ attributed f g s qs) : q.1 ∈ qs.map Prod.fst := by
  induction qs generalizing s with
  | nil => exact absurd h List.not_mem_nil
  | cons ie qs ih =>
    obtain ⟨i, e⟩ := ie
    rw [attributed, List.mem_append] at h
    rw [List.map_cons, List.mem_cons]
    rcases h with h | h
    · obtain ⟨m, -, rfl⟩ := List.mem_map.mp h
      exact .inl rfl
    · exact .inr (ih h)

variable [DecidableEq ι]

/-- The entries under the name `i`. -/
def under (i : ι) (log : List (ι × α)) : List α :=
  log.filterMap fun q => if q.1 = i then some q.2 else none

@[simp] theorem under_nil (i : ι) : under i ([] : List (ι × α)) = [] := rfl

theorem under_append (i : ι) (log log' : List (ι × α)) :
    under i (log ++ log') = under i log ++ under i log' :=
  List.filterMap_append

@[simp] theorem under_map_self (i : ι) (ms : List α) : under i (ms.map (Prod.mk i)) = ms := by
  unfold under
  rw [List.filterMap_map]
  have hall : ((fun q : ι × α => if q.1 = i then some q.2 else none) ∘ Prod.mk i) = some := by
    funext m
    exact if_pos rfl
  rw [hall, List.filterMap_some]

/-- Under a name that no entry has there is nothing. -/
theorem under_of_forall_ne {i : ι} {log : List (ι × α)} (h : ∀ q ∈ log, q.1 ≠ i) :
    under i log = [] := by
  unfold under
  rw [List.filterMap_eq_nil_iff]
  intro q hq
  exact if_neg (h q hq)

theorem under_map_of_ne {i j : ι} (h : j ≠ i) (ms : List α) : under i (ms.map (Prod.mk j)) = [] := by
  apply under_of_forall_ne
  intro q hq
  obtain ⟨m, -, rfl⟩ := List.mem_map.mp hq
  exact h

/-- Nothing is attributed to a name that no event has. -/
theorem under_attributed_of_notMem {f : σ → ε → σ} {g : σ → List α} {s : σ} {qs : List (ι × ε)}
    {i : ι} (h : i ∉ qs.map Prod.fst) : under i (attributed f g s qs) = [] := by
  apply under_of_forall_ne
  intro q hq hqi
  exact h (hqi ▸ fst_mem_of_mem_attributed hq)

/-- Under a name that occurs once stands what the step of its event adds. -/
theorem under_attributed {f : σ → ε → σ} {g : σ → List α} {s : σ} {pre post : List (ι × ε)} {i : ι}
    {e : ε} (hpre : i ∉ pre.map Prod.fst) (hpost : i ∉ post.map Prod.fst) :
    under i (attributed f g s (pre ++ (i, e) :: post)) =
      added (g (run f s (pre.map Prod.snd))) (g (f (run f s (pre.map Prod.snd)) e)) := by
  induction pre generalizing s with
  | nil =>
    rw [List.nil_append, attributed, under_append, under_map_self,
      under_attributed_of_notMem hpost, List.append_nil]
    rfl
  | cons je pre ih =>
    obtain ⟨j, e'⟩ := je
    rw [List.map_cons, List.mem_cons, not_or] at hpre
    rw [List.cons_append, attributed, under_append, under_map_of_ne (Ne.symm hpre.1), List.nil_append,
      ih hpre.2]
    rfl

end Log
