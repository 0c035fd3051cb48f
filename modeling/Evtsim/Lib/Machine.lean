import Mathlib.Data.List.Basic
import Mathlib.Logic.Function.Iterate

/-!
# Runs of a deterministic machine

A machine is a step function `σ → ε → σ`, and a run is its left fold over a list of events. The loops
over a batch of requests are machines too, with the requests as events.

`Along` says that every event meets a condition in the state that finds it, `Sometime` that some event
does, `Throughout` that every state of the run has a property. The rules below turn a fact about one
step into a fact about whole runs: `throughout_of_along` is the invariant rule, `throughout_iff_along`
characterises the runs that keep a property by a condition on their steps, and `run_map` follows a
smaller machine along.
-/

namespace Machine

variable {σ ε : Type*}

/-- Run `f` over a list of events. -/
def run (f : σ → ε → σ) (s : σ) (es : List ε) : σ := es.foldl f s

/-- Every event of the run meets `C` in the state that finds it. -/
def Along (f : σ → ε → σ) (C : σ → ε → Prop) : σ → List ε → Prop
  | _, [] => True
  | s, e :: es => C s e ∧ Along f C (f s e) es

/-- Some event of the run meets `C` in the state that finds it. -/
def Sometime (f : σ → ε → σ) (C : σ → ε → Prop) : σ → List ε → Prop
  | _, [] => False
  | s, e :: es => C s e ∨ Sometime f C (f s e) es

/-- The first state and the state after every event have `P`. -/
def Throughout (f : σ → ε → σ) (P : σ → Prop) : σ → List ε → Prop
  | s, [] => P s
  | s, e :: es => P s ∧ Throughout f P (f s e) es

instance decidableAlong (f : σ → ε → σ) (C : σ → ε → Prop) [∀ s e, Decidable (C s e)] :
    ∀ s es, Decidable (Along f C s es)
  | _, [] => isTrue trivial
  | s, e :: es =>
    have := decidableAlong f C (f s e) es
    inferInstanceAs (Decidable (C s e ∧ Along f C (f s e) es))

instance decidableSometime (f : σ → ε → σ) (C : σ → ε → Prop) [∀ s e, Decidable (C s e)] :
    ∀ s es, Decidable (Sometime f C s es)
  | _, [] => isFalse not_false
  | s, e :: es =>
    have := decidableSometime f C (f s e) es
    inferInstanceAs (Decidable (C s e ∨ Sometime f C (f s e) es))

variable {f : σ → ε → σ} {C D : σ → ε → Prop} {I P : σ → Prop}

@[simp] theorem run_nil (s : σ) : run f s [] = s := rfl

@[simp] theorem run_cons (s : σ) (e : ε) (es : List ε) :
    run f s (e :: es) = run f (f s e) es := rfl

/-- A run in two parts. -/
theorem run_append (s : σ) (es fs : List ε) :
    run f s (es ++ fs) = run f (run f s es) fs :=
  List.foldl_append

@[simp] theorem along_nil (s : σ) : Along f C s [] := trivial

@[simp] theorem along_cons {s : σ} {e : ε} {es : List ε} :
    Along f C s (e :: es) ↔ C s e ∧ Along f C (f s e) es := Iff.rfl

/-- A condition along a run in two parts. -/
theorem along_append {s : σ} {es fs : List ε} :
    Along f C s (es ++ fs) ↔ Along f C s es ∧ Along f C (run f s es) fs := by
  induction es generalizing s with
  | nil => simp
  | cons e es ih => simp [ih, and_assoc]

/-- `Along` by the splits of the run at one event. -/
theorem along_iff {s : σ} {es : List ε} :
    Along f C s es ↔ ∀ pre e post, es = pre ++ e :: post → C (run f s pre) e := by
  constructor
  · rintro h pre e post rfl
    exact (along_append.mp h).2.1
  · intro h
    induction es generalizing s with
    | nil => trivial
    | cons e es ih =>
      refine ⟨h [] e es rfl, ih fun pre e' post hes => ?_⟩
      exact h (e :: pre) e' post (by rw [hes, List.cons_append])

/-- A weaker condition holds along too. -/
theorem Along.imp {s : σ} {es : List ε} (hCD : ∀ s e, C s e → D s e)
    (h : Along f C s es) : Along f D s es := by
  induction es generalizing s with
  | nil => trivial
  | cons e es ih => exact ⟨hCD s e h.1, ih h.2⟩

/-- Two conditions hold along together. -/
theorem Along.and {s : σ} {es : List ε} (hC : Along f C s es) (hD : Along f D s es) :
    Along f (fun s e => C s e ∧ D s e) s es := by
  induction es generalizing s with
  | nil => trivial
  | cons e es ih => exact ⟨⟨hC.1, hD.1⟩, ih hC.2 hD.2⟩

/-- Some event of a run in two parts. -/
theorem sometime_append {s : σ} {es fs : List ε} :
    Sometime f C s (es ++ fs) ↔ Sometime f C s es ∨ Sometime f C (run f s es) fs := by
  induction es generalizing s with
  | nil => simp [Sometime]
  | cons e es ih => simp [Sometime, ih, or_assoc]

/-- Some event of a run, or its last one. -/
theorem sometime_concat {s : σ} {es : List ε} {e : ε} :
    Sometime f C s (es ++ [e]) ↔ Sometime f C s es ∨ C (run f s es) e := by
  simp [sometime_append, Sometime]

/-- Some event meets a weaker condition too. -/
theorem Sometime.imp {s : σ} {es : List ε} (hCD : ∀ s e, C s e → D s e)
    (h : Sometime f C s es) : Sometime f D s es := by
  induction es generalizing s with
  | nil => exact h
  | cons e es ih => exact Or.imp (hCD s e) ih h

/-- Machines that agree where `C` holds run alike along it. -/
theorem run_congr {g : σ → ε → σ} (hfg : ∀ s e, C s e → g s e = f s e) {s : σ} {es : List ε}
    (h : Along f C s es) : run g s es = run f s es := by
  induction es generalizing s with
  | nil => rfl
  | cons e es ih => rw [run_cons, run_cons, hfg s e h.1, ih h.2]

/-- Machines run alike over lists of events that do the same one by one, where the invariant holds. -/
theorem run_forall₂ {δ : Type*} {g : σ → δ → σ} {R : ε → δ → Prop}
    (hfg : ∀ s e d, I s → R e d → f s e = g s d ∧ I (f s e)) {s : σ} (hs : I s) {es : List ε}
    {ds : List δ} (h : List.Forall₂ R es ds) : run f s es = run g s ds := by
  induction h generalizing s with
  | nil => rfl
  | cons hed _ ih =>
    obtain ⟨heq, hnext⟩ := hfg s _ _ hs hed
    rw [run_cons, run_cons, ← heq]
    exact ih hnext

/-- What a state is brought to by `r` before a run does not matter after it, if it does not for a step. -/
theorem run_normal {r : σ → σ} (hr : ∀ s, r (r s) = r s) (hf : ∀ s e, r (f (r s) e) = r (f s e)) (s : σ)
    (es : List ε) : r (run f (r s) es) = r (run f s es) := by
  induction es generalizing s with
  | nil => exact hr s
  | cons e es ih => rw [run_cons, run_cons, ← ih, hf, ih]

/-- A condition on the event alone holds along a run exactly when every event of the list meets it. -/
theorem along_forall_iff {Q : ε → Prop} {s : σ} {es : List ε} :
    Along f (fun _ e => Q e) s es ↔ ∀ e ∈ es, Q e := by
  induction es generalizing s with
  | nil => simp
  | cons e es ih => simp [ih]

/-- What every event of the list meets holds along the run. -/
theorem along_of_forall {Q : ε → Prop} {s : σ} {es : List ε} (h : ∀ e ∈ es, Q e) :
    Along f (fun _ e => Q e) s es :=
  along_forall_iff.mpr h

/-- What an invariant gives for every event of the list holds along the run. -/
theorem along_of_invariant {Q : ε → Prop} (hI : ∀ s e, I s → I (f s e))
    (hC : ∀ s e, I s → Q e → C s e) {s : σ} {es : List ε} (hs : I s) (hQ : ∀ e ∈ es, Q e) :
    Along f C s es := by
  induction es generalizing s with
  | nil => trivial
  | cons e es ih =>
    refine ⟨hC s e hs (hQ e List.mem_cons_self), ih (hI s e hs) fun e' he' => ?_⟩
    exact hQ e' (List.mem_cons_of_mem e he')

/-- What an invariant and the condition that keeps it up give at every step holds along the run. -/
theorem Along.of_invariant (hI : ∀ s e, I s → C s e → I (f s e)) (hD : ∀ s e, I s → C s e → D s e)
    {s : σ} {es : List ε} (hs : I s) (h : Along f C s es) : Along f D s es := by
  induction es generalizing s with
  | nil => trivial
  | cons e es ih => exact ⟨hD s e hs h.1, ih (hI s e hs h.1) h.2⟩

/-- Conditions that agree under an invariant and a standing condition hold along the same runs. -/
theorem along_congr {K : σ → ε → Prop} (hI : ∀ s e, I s → K s e → D s e → I (f s e))
    (hCD : ∀ s e, I s → K s e → (C s e ↔ D s e)) {s : σ} {es : List ε} (hs : I s)
    (hK : Along f K s es) : Along f C s es ↔ Along f D s es := by
  induction es generalizing s with
  | nil => exact Iff.rfl
  | cons e es ih =>
    rw [along_cons, along_cons, hCD s e hs hK.1]
    exact and_congr_right fun he => ih (hI s e hs hK.1 he) hK.2

/-- `Throughout` by the prefixes of the run. -/
theorem throughout_iff {s : σ} {es : List ε} :
    Throughout f P s es ↔ ∀ pre, pre <+: es → P (run f s pre) := by
  induction es generalizing s with
  | nil => simp [Throughout]
  | cons e es ih =>
    constructor
    · rintro ⟨hs, hrest⟩ pre hpre
      cases pre with
      | nil => exact hs
      | cons e' pre =>
        obtain ⟨rfl, hpre'⟩ := List.cons_prefix_cons.mp hpre
        exact ih.mp hrest pre hpre'
    · intro h
      refine ⟨h [] List.nil_prefix, ih.mpr fun pre hpre => ?_⟩
      exact h (e :: pre) (List.cons_prefix_cons.mpr ⟨rfl, hpre⟩)

/-- What holds throughout holds at the start. -/
theorem Throughout.head {s : σ} {es : List ε} (h : Throughout f P s es) : P s := by
  cases es with
  | nil => exact h
  | cons e es => exact h.1

/-- What holds throughout holds at the end. -/
theorem Throughout.last {s : σ} {es : List ε} (h : Throughout f P s es) :
    P (run f s es) :=
  throughout_iff.mp h es (List.prefix_refl es)

/-- A weaker property holds throughout too. -/
theorem Throughout.imp {Q : σ → Prop} {s : σ} {es : List ε} (hPQ : ∀ s, P s → Q s)
    (h : Throughout f P s es) : Throughout f Q s es :=
  throughout_iff.mpr fun pre hpre => hPQ _ (throughout_iff.mp h pre hpre)

/-- **Invariant rule.** What every step that meets `C` preserves holds throughout a run all of whose
steps meet `C`. -/
theorem throughout_of_along (hstep : ∀ s e, I s → C s e → I (f s e)) {s : σ} {es : List ε}
    (hs : I s) (hes : Along f C s es) : Throughout f I s es := by
  induction es generalizing s with
  | nil => exact hs
  | cons e es ih => exact ⟨hs, ih (hstep s e hs hes.1) hes.2⟩

/-- The invariant rule, read off at the end of the run. -/
theorem run_of_along (hstep : ∀ s e, I s → C s e → I (f s e)) {s : σ} {es : List ε}
    (hs : I s) (hes : Along f C s es) : I (run f s es) :=
  (throughout_of_along hstep hs hes).last

/-- The invariant rule for an unconditional invariant. -/
theorem run_invariant (hstep : ∀ s e, I s → I (f s e)) {s : σ} (hs : I s) (es : List ε) :
    I (run f s es) :=
  run_of_along (C := fun _ _ => True) (fun s e h _ => hstep s e h) hs
    (along_of_forall fun _ _ => trivial)

/-- **Exact rule.** If, under the invariant `I` and the standing condition `D`, a step from a state
with `P` lands in a state with `P` exactly when it meets `C`, then a run keeps `P` throughout exactly
when it meets `C` along. -/
theorem throughout_iff_along (hI : ∀ s e, I s → D s e → I (f s e))
    (hP : ∀ s e, I s → D s e → P s → (P (f s e) ↔ C s e)) {s : σ} {es : List ε}
    (hs : I s) (hPs : P s) (hD : Along f D s es) :
    Throughout f P s es ↔ Along f C s es := by
  induction es generalizing s with
  | nil => exact ⟨fun _ => trivial, fun _ => hPs⟩
  | cons e es ih =>
    have hnext := ih (hI s e hs hD.1)
    constructor
    · rintro ⟨-, hrest⟩
      have hPe := hrest.head
      exact ⟨(hP s e hs hD.1 hPs).mp hPe, (hnext hPe hD.2).mp hrest⟩
    · rintro ⟨hC, hrest⟩
      have hPe := (hP s e hs hD.1 hPs).mpr hC
      exact ⟨hPs, (hnext hPe hD.2).mpr hrest⟩

/-- The exact rule with one invariant that gives `P` and that the condition keeps up. -/
theorem throughout_iff_of_step (hIP : ∀ s, I s → P s) (hP : ∀ s e, I s → (P (f s e) ↔ C s e))
    (hI : ∀ s e, I s → C s e → I (f s e)) {s : σ} {es : List ε} (hs : I s) :
    Throughout f P s es ↔ Along f C s es := by
  induction es generalizing s with
  | nil => exact ⟨fun _ => trivial, fun _ => hIP s hs⟩
  | cons e es ih =>
    constructor
    · rintro ⟨-, hrest⟩
      have hC := (hP s e hs).mp hrest.head
      exact ⟨hC, (ih (hI s e hs hC)).mp hrest⟩
    · rintro ⟨hC, hrest⟩
      exact ⟨hIP s hs, (ih (hI s e hs hC)).mpr hrest⟩

/-- **Exact rule for the end of a run.** If a step lands in a state with `P` exactly when it starts in
one and meets `C`, then a run ends in a state with `P` exactly when it starts in one and meets `C`
along. -/
theorem run_iff_along (hI : ∀ s e, I s → D s e → I (f s e))
    (hP : ∀ s e, I s → D s e → (P (f s e) ↔ P s ∧ C s e)) {s : σ} {es : List ε}
    (hs : I s) (hD : Along f D s es) : P (run f s es) ↔ P s ∧ Along f C s es := by
  induction es generalizing s with
  | nil => exact (and_iff_left trivial).symm
  | cons e es ih =>
    rw [run_cons, ih (hI s e hs hD.1) hD.2, hP s e hs hD.1, along_cons, and_assoc]

/-- The same rule where nothing is assumed of the states and the events. -/
theorem run_iff_of_step (hP : ∀ s e, P (f s e) ↔ P s ∧ C s e) (s : σ) (es : List ε) :
    P (run f s es) ↔ P s ∧ Along f C s es :=
  run_iff_along (I := fun _ => True) (D := fun _ _ => True) (fun _ _ _ _ => trivial)
    (fun s e _ _ => hP s e) trivial (along_of_forall fun _ _ => trivial)

/-! ## Projections -/

section

variable {τ : Type*} {h : τ → ε → τ} {g : σ → τ}

/-- A view `g` of the states that the machine `h` keeps up to date is that of the end of the run. -/
theorem run_map (hI : ∀ s e, I s → D s e → I (f s e))
    (hg : ∀ s e, I s → D s e → g (f s e) = h (g s) e) {s : σ} {es : List ε} (hs : I s)
    (hD : Along f D s es) : g (run f s es) = run h (g s) es := by
  induction es generalizing s with
  | nil => rfl
  | cons e es ih => rw [run_cons, ih (hI s e hs hD.1) hD.2, hg s e hs hD.1, run_cons]

/-- The same where nothing is assumed of the states and the events. -/
theorem run_view (hg : ∀ s e, g (f s e) = h (g s) e) (s : σ) (es : List ε) :
    g (run f s es) = run h (g s) es :=
  run_map (I := fun _ => True) (D := fun _ _ => True) (fun _ _ _ _ => trivial) (fun s e _ _ => hg s e)
    trivial (along_of_forall fun _ _ => trivial)

/-- A condition on the view holds along the machine exactly when it holds along its view. -/
theorem along_map {C : τ → ε → Prop} (hI : ∀ s e, I s → D s e → I (f s e))
    (hg : ∀ s e, I s → D s e → g (f s e) = h (g s) e) {s : σ} {es : List ε} (hs : I s)
    (hD : Along f D s es) : Along f (fun s e => C (g s) e) s es ↔ Along h C (g s) es := by
  induction es generalizing s with
  | nil => exact Iff.rfl
  | cons e es ih => rw [along_cons, along_cons, ih (hI s e hs hD.1) hD.2, hg s e hs hD.1]

/-- A view that moves by a reading `r` of the events. -/
theorem run_reading {δ : Type*} {r : ε → δ} {k : τ → δ → τ} (hg : ∀ s e, g (f s e) = k (g s) (r e))
    (s : σ) (es : List ε) : g (run f s es) = run k (g s) (es.map r) := by
  induction es generalizing s with
  | nil => rfl
  | cons e es ih => rw [run_cons, ih, hg, List.map_cons, run_cons]

/-- A condition on the view and on the reading holds along the machine exactly when it holds along the
view. -/
theorem along_reading {δ : Type*} {r : ε → δ} {k : τ → δ → τ} {C : τ → δ → Prop}
    (hg : ∀ s e, g (f s e) = k (g s) (r e)) {s : σ} {es : List ε} :
    Along f (fun s e => C (g s) (r e)) s es ↔ Along k C (g s) (es.map r) := by
  induction es generalizing s with
  | nil => exact Iff.rfl
  | cons e es ih => rw [along_cons, List.map_cons, along_cons, ih, hg]

/-- A property of the view holds throughout the machine exactly when it holds throughout the view. -/
theorem throughout_reading {δ : Type*} {r : ε → δ} {k : τ → δ → τ} {P : τ → Prop}
    (hg : ∀ s e, g (f s e) = k (g s) (r e)) {s : σ} {es : List ε} :
    Throughout f (fun s => P (g s)) s es ↔ Throughout k P (g s) (es.map r) := by
  induction es generalizing s with
  | nil => exact Iff.rfl
  | cons e es ih =>
    rw [List.map_cons, Throughout, Throughout, ih, hg]

/-- **Simulation rule.** A relation that the steps which meet `C` preserve relates the ends of two runs over
the same events. -/
theorem run_related {R : σ → τ → Prop} (hstep : ∀ s t e, R s t → C s e → R (f s e) (h t e)) {s : σ}
    {t : τ} {es : List ε} (hst : R s t) (hC : Along f C s es) : R (run f s es) (run h t es) := by
  induction es generalizing s t with
  | nil => exact hst
  | cons e es ih => exact ih (hstep s t e hst hC.1) hC.2

end

/-! ## Latches -/

/-- Some event with `S` has come, and none with `R` behind it. -/
def Latched (f : σ → ε → σ) (S R : σ → ε → Prop) (s : σ) (es : List ε) : Prop :=
  ∃ pre e post, es = pre ++ e :: post ∧ S (run f s pre) e ∧
    Along f (fun s e => ¬ R s e) (run f s (pre ++ [e])) post

/-- **Latch rule.** What an event with `S` sets and one with `R` takes back holds at the end of a run
exactly when it was set behind the last `R`, or held at the start and there was none. -/
theorem latch_run_iff {S R : σ → ε → Prop} (hI : ∀ s e, I s → D s e → I (f s e))
    (hP : ∀ s e, I s → D s e → (P (f s e) ↔ S s e ∨ P s ∧ ¬ R s e)) {s : σ} {es : List ε}
    (hs : I s) (hD : Along f D s es) :
    P (run f s es) ↔ Latched f S R s es ∨ P s ∧ Along f (fun s e => ¬ R s e) s es := by
  induction es generalizing s with
  | nil =>
    refine ⟨fun h => .inr ⟨h, trivial⟩, ?_⟩
    rintro (⟨pre, e, post, hes, -⟩ | ⟨h, -⟩)
    · exact absurd hes (by simp)
    · exact h
  | cons e es ih =>
    rw [run_cons, ih (hI s e hs hD.1) hD.2, hP s e hs hD.1, along_cons]
    constructor
    · rintro (⟨pre, e', post, rfl, hS, hR⟩ | ⟨hS | ⟨h, hR⟩, hrest⟩)
      · exact .inl ⟨e :: pre, e', post, rfl, hS, hR⟩
      · exact .inl ⟨[], e, es, rfl, hS, hrest⟩
      · exact .inr ⟨h, hR, hrest⟩
    · rintro (⟨pre, e', post, hes, hS, hR⟩ | ⟨h, hR, hrest⟩)
      · cases pre with
        | nil =>
          obtain ⟨rfl, rfl⟩ := List.cons.inj hes
          exact .inr ⟨.inl hS, hR⟩
        | cons e'' pre =>
          obtain ⟨rfl, rfl⟩ := List.cons.inj hes
          exact .inl ⟨pre, e', post, rfl, hS, hR⟩
      · exact .inr ⟨.inr ⟨h, hR⟩, hrest⟩

/-- The latch rule for runs from a state where nothing is set, with nothing assumed of the events. -/
theorem latched_run_iff {S R : σ → ε → Prop} (hP : ∀ s e, P (f s e) ↔ S s e ∨ P s ∧ ¬ R s e) {s : σ}
    (hs : ¬ P s) (es : List ε) : P (run f s es) ↔ Latched f S R s es :=
  (latch_run_iff (I := fun _ => True) (D := fun _ _ => True) (fun _ _ _ _ => trivial)
    (fun s e _ _ => hP s e) trivial (along_of_forall fun _ _ => trivial)).trans
    (or_iff_left fun h => hs h.1)

/-! ## Views of single events

A run over distinct keys, in which the step of a key leaves the views of all others alone. -/

section

variable {τ : Type*} {v : ε → σ → τ}

/-- A run over other keys leaves the view of `k` alone. -/
theorem view_run_of_notMem (hI : ∀ s k, I s → I (f s k))
    (hview : ∀ s k k', I s → k' ≠ k → v k (f s k') = v k s) {s : σ} {ks : List ε} {k : ε}
    (hs : I s) (hk : k ∉ ks) : v k (run f s ks) = v k s := by
  induction ks generalizing s with
  | nil => rfl
  | cons k' ks ih =>
    rw [List.mem_cons, not_or] at hk
    rw [run_cons, ih (hI s k' hs) hk.2]
    exact hview s k k' hs (Ne.symm hk.1)

/-- A run that meets `k` changes its view as one step does, from a state that shows the same view. -/
theorem view_run_of_mem (hI : ∀ s k, I s → I (f s k))
    (hview : ∀ s k k', I s → k' ≠ k → v k (f s k') = v k s) {s : σ} {ks : List ε} {k : ε}
    (hs : I s) (hnodup : ks.Nodup) (hk : k ∈ ks) :
    ∃ s', I s' ∧ v k s' = v k s ∧ v k (run f s ks) = v k (f s' k) := by
  induction ks generalizing s with
  | nil => exact absurd hk List.not_mem_nil
  | cons k' ks ih =>
    obtain ⟨hout, hnodup⟩ := List.nodup_cons.mp hnodup
    by_cases heq : k = k'
    · subst heq
      exact ⟨s, hs, rfl, view_run_of_notMem hI hview (hI s k hs) hout⟩
    · obtain ⟨s', hs', hsame, hrun⟩ := ih (hI s k' hs) hnodup ((List.mem_cons.mp hk).resolve_left heq)
      exact ⟨s', hs', hsame.trans (hview s k k' hs (Ne.symm heq)), hrun⟩

end

/-! ## Draining -/

/-- A stock that loses at least `c` or all that is left at every step until it is used up, and is done
one step later, is done after as many steps as `c` goes into it, rounded up, and one more. -/
theorem iterate_drains {g : σ → σ} {A : ℕ → σ → Prop} {B : σ → Prop} {c q n : ℕ} (hc : 0 < c)
    (hI : ∀ s, I s → I (g s)) (hA : ∀ s left, I s → A left s → A (left - c) (g s) ∨ B (g s))
    (hzero : ∀ s, I s → A 0 s → B (g s)) (hB : ∀ s, I s → B s → B (g s)) {s : σ}
    (hs : I s) (hq : A q s) (hn : (q + (c - 1)) / c + 1 ≤ n) : B (g^[n] s) := by
  -- after `j` steps at most `q - c * j` is left, or it is done
  have hsteps : ∀ j, I (g^[j] s) ∧ (A (q - c * j) (g^[j] s) ∨ B (g^[j] s)) := by
    intro j
    induction j with
    | zero => exact ⟨hs, .inl hq⟩
    | succ j ih =>
      obtain ⟨hj, hphase⟩ := ih
      have hleft : q - c * (j + 1) = q - c * j - c := by
        rw [Nat.mul_succ, Nat.sub_add_eq]
      rw [Function.iterate_succ_apply', hleft]
      refine ⟨hI _ hj, ?_⟩
      rcases hphase with hstock | hdone
      · exact hA _ _ hj hstock
      · exact .inr (hB _ hj hdone)
  obtain ⟨j, rfl⟩ := Nat.exists_eq_add_of_le' (Nat.le_trans (Nat.le_add_left 1 _) hn)
  obtain ⟨hj, hphase⟩ := hsteps j
  have hnone : q - c * j = 0 := by
    have hceil : (q + (c - 1)) / c ≤ j := Nat.le_of_succ_le_succ hn
    have hlt : q + (c - 1) < c * (j + 1) := by
      rw [Nat.mul_comm]
      exact (Nat.div_lt_iff_lt_mul hc).mp (Nat.lt_succ_of_le hceil)
    rw [Nat.mul_succ] at hlt
    omega
  rw [Function.iterate_succ_apply']
  rcases hphase with hstock | hdone
  · rw [hnone] at hstock
    exact hzero _ hj hstock
  · exact hB _ hj hdone

end Machine
