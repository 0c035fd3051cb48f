import Evtsim.Lib.Log

/-!
# Names that must not be mentioned again

A `Watch` follows a machine with a log. A step can retire a name, with a note, and can give a retired
name to something else; an entry about a retired name is late. `Exact.run` turns a step rule, by which an
invariant says exactly when a step has no late entry, into the same for a run, and `Exact.trans`
puts runs of different machines behind each other.
-/

open Machine Log

/-- What the steps of a machine mean for the names. -/
structure Reading (σ ε ι κ β : Type*) where
  /-- The name that a new entry is about. -/
  about : ε → β → Option ι
  /-- The name that a step gives away. -/
  given : σ → ε → Option ι
  /-- The name that a step retires, with a note. -/
  retired : σ → ε → Option (ι × κ)

/-- A machine with the retired names and the late entries so far. -/
structure Watch (σ ι κ β : Type*) where
  st : σ
  retired : List (ι × κ)
  late : List β

namespace Watch

variable {σ τ ε ι κ β : Type*}

/-- The watch over another machine that goes on from here. -/
def goOn (a : Watch σ ι κ β) (t : τ) : Watch τ ι κ β :=
  { st := t, retired := a.retired, late := a.late }

@[simp] theorem goOn_st (a : Watch σ ι κ β) (t : τ) : (a.goOn t).st = t := rfl
@[simp] theorem goOn_retired (a : Watch σ ι κ β) (t : τ) : (a.goOn t).retired = a.retired := rfl
@[simp] theorem goOn_late (a : Watch σ ι κ β) (t : τ) : (a.goOn t).late = a.late := rfl

/-! ## Exactness -/

/-- Behind `a` under the invariant `I` stands `b`: it has no late entry exactly when `C` holds, and
then the invariant `J`. -/
structure Exact (I : Watch σ ι κ β → Prop) (J : Watch τ ι κ β → Prop) (a : Watch σ ι κ β)
    (b : Watch τ ι κ β) (C : Prop) : Prop where
  late : b.late = [] → a.late = []
  iff : I a → a.late = [] → (b.late = [] ↔ C)
  next : I a → a.late = [] → C → J b

/-- The machine changes silently before the part that is watched. -/
theorem Exact.pre {υ : Type*} {I : Watch σ ι κ β → Prop} {J : Watch τ ι κ β → Prop}
    {K : Watch υ ι κ β → Prop} {a : Watch σ ι κ β} {t : τ} {b : Watch υ ι κ β} {C : Prop}
    (h : Exact J K (a.goOn t) b C) (hI : I a → J (a.goOn t)) : Exact I K a b C :=
  ⟨h.late, fun hIa => h.iff (hI hIa), fun hIa => h.next (hI hIa)⟩

/-- The machine changes silently behind the part that is watched. -/
theorem Exact.post {υ : Type*} {I : Watch σ ι κ β → Prop} {J : Watch τ ι κ β → Prop}
    {K : Watch υ ι κ β → Prop} {a : Watch σ ι κ β} {b : Watch τ ι κ β} {t : υ} {C : Prop}
    (h : Exact I J a b C) (hK : I a → J b → K (b.goOn t)) : Exact I K a (b.goOn t) C :=
  ⟨h.late, h.iff, fun hIa hlate hC => hK hIa (h.next hIa hlate hC)⟩

/-- Less may be said of the state behind. -/
theorem Exact.mono {I : Watch σ ι κ β → Prop} {J K : Watch τ ι κ β → Prop} {a : Watch σ ι κ β}
    {b : Watch τ ι κ β} {C : Prop} (h : Exact I J a b C) (hJK : J b → K b) : Exact I K a b C :=
  ⟨h.late, h.iff, fun hIa hlate hC => hJK (h.next hIa hlate hC)⟩

/-- The condition may be put differently. -/
theorem Exact.congr {I : Watch σ ι κ β → Prop} {J : Watch τ ι κ β → Prop} {a : Watch σ ι κ β}
    {b : Watch τ ι κ β} {C D : Prop} (h : Exact I J a b C) (hCD : I a → (C ↔ D)) :
    Exact I J a b D :=
  ⟨h.late, fun hIa hlate => (h.iff hIa hlate).trans (hCD hIa),
    fun hIa hlate hD => h.next hIa hlate ((hCD hIa).mpr hD)⟩

/-- Two watched parts behind each other have no late entry exactly when neither has. -/
theorem Exact.trans {υ : Type*} {I : Watch σ ι κ β → Prop} {J : Watch τ ι κ β → Prop}
    {K : Watch υ ι κ β → Prop} {a : Watch σ ι κ β} {b : Watch τ ι κ β} {c : Watch υ ι κ β}
    {C D : Prop} (h : Exact I J a b C) (h' : Exact J K b c D) : Exact I K a c (C ∧ D) := by
  refine ⟨fun hc => h.late (h'.late hc), fun hI hlate => ?_, fun hI hlate hCD => ?_⟩
  · constructor
    · intro hc
      have hb := h'.late hc
      have hC := (h.iff hI hlate).mp hb
      exact ⟨hC, (h'.iff (h.next hI hlate hC) hb).mp hc⟩
    · rintro ⟨hC, hD⟩
      have hb := (h.iff hI hlate).mpr hC
      exact (h'.iff (h.next hI hlate hC) hb).mpr hD
  · have hb := (h.iff hI hlate).mpr hCD.1
    exact h'.next (h.next hI hlate hCD.1) hb hCD.2

/-! ## Steps under watch -/

/-- The retired names. -/
def names (a : Watch σ ι κ β) : List ι := a.retired.map Prod.fst

theorem mem_names_of_mem {a : Watch σ ι κ β} {q : ι × κ} (h : q ∈ a.retired) : q.1 ∈ a.names :=
  List.mem_map_of_mem h

variable (f : σ → ε → σ) (g : σ → List β) (R : Reading σ ε ι κ β)

/-- A new entry of the step is about a retired name. -/
def Mentions (a : Watch σ ι κ β) (e : ε) : Prop :=
  ∃ m ∈ added (g a.st) (g (f a.st e)), ∃ q ∈ a.retired, R.about e m = some q.1

/-- One step under watch. -/
def step [DecidableEq ι] (a : Watch σ ι κ β) (e : ε) : Watch σ ι κ β :=
  { st := f a.st e
    retired :=
      a.retired.filter (fun q => R.given a.st e ≠ some q.1) ++ (R.retired a.st e).toList
    late := a.late ++ (added (g a.st) (g (f a.st e))).filter fun m =>
      ∃ q ∈ a.retired, R.about e m = some q.1 }

variable {f g R}

/-- A silent step mentions nothing. -/
theorem not_mentions_of_added_nil {a : Watch σ ι κ β} {e : ε}
    (h : added (g a.st) (g (f a.st e)) = []) : ¬ Mentions f g R a e := by
  rintro ⟨m, hm, -⟩
  rw [h] at hm
  exact List.not_mem_nil hm

/-- A step with one new entry mentions what this entry is about. -/
theorem mentions_of_added_singleton {a : Watch σ ι κ β} {e : ε} {m : β} {i : ι}
    (h : added (g a.st) (g (f a.st e)) = [m]) (hm : R.about e m = some i) :
    Mentions f g R a e ↔ i ∈ a.names := by
  unfold Mentions names
  rw [h, List.mem_map]
  constructor
  · rintro ⟨m', hm', q, hq, hi⟩
    rw [List.mem_singleton.mp hm', hm] at hi
    exact ⟨q, hq, (Option.some.inj hi).symm⟩
  · rintro ⟨q, hq, rfl⟩
    exact ⟨m, List.mem_singleton_self m, q, hq, hm⟩

/-- Entries about nothing mention nothing. -/
theorem not_mentions_of_about_none {a : Watch σ ι κ β} {e : ε}
    (h : ∀ m ∈ added (g a.st) (g (f a.st e)), R.about e m = none) : ¬ Mentions f g R a e := by
  rintro ⟨m, hm, q, -, hq⟩
  cases (h m hm).symm.trans hq

variable [DecidableEq ι]

@[simp] theorem step_st (a : Watch σ ι κ β) (e : ε) : (step f g R a e).st = f a.st e := rfl

/-- The retired names behind a step: those that it does not give away, and the one that it retires. -/
theorem mem_retired_step {a : Watch σ ι κ β} {e : ε} {q : ι × κ} :
    q ∈ (step f g R a e).retired ↔
      q ∈ a.retired ∧ R.given a.st e ≠ some q.1 ∨ R.retired a.st e = some q := by
  show q ∈ _ ++ _ ↔ _
  rw [List.mem_append, List.mem_filter, Option.mem_toList, decide_eq_true_eq]

/-- No entry is late exactly if none was and the step mentions no retired name. -/
theorem late_step_eq_nil {a : Watch σ ι κ β} {e : ε} :
    (step f g R a e).late = [] ↔ a.late = [] ∧ ¬ Mentions f g R a e := by
  show _ ++ _ = [] ↔ _
  rw [List.append_eq_nil_iff, List.filter_eq_nil_iff]
  refine and_congr_right fun _ => ⟨?_, ?_⟩
  · rintro h ⟨m, hm, hq⟩
    exact h m hm (decide_eq_true hq)
  · intro h m hm hq
    exact h ⟨m, hm, of_decide_eq_true hq⟩

/-- The watch does not touch the machine. -/
theorem run_st (a : Watch σ ι κ β) (es : List ε) :
    (run (step f g R) a es).st = run f a.st es :=
  run_view (g := Watch.st) (fun _ _ => rfl) a es

/-- **Step rule.** -/
theorem Exact.single {I : Watch σ ι κ β → Prop} {a : Watch σ ι κ β} {e : ε} {C : Prop}
    (hC : I a → (¬ Mentions f g R a e ↔ C)) (hI : I a → C → I (step f g R a e)) :
    Exact I I a (step f g R a e) C := by
  refine ⟨fun h => (late_step_eq_nil.mp h).1, fun hIa hlate => ?_, fun hIa _ => hI hIa⟩
  rw [late_step_eq_nil, hC hIa]
  exact and_iff_right hlate

/-- **Run rule.** Steps that keep the invariant while they mention no retired name. -/
theorem Exact.run {I : Watch σ ι κ β → Prop} {C : Watch σ ι κ β → ε → Prop}
    (hC : ∀ a e, I a → (¬ Mentions f g R a e ↔ C a e))
    (hI : ∀ a e, I a → C a e → I (step f g R a e)) (a : Watch σ ι κ β) (es : List ε) :
    Exact I I a (run (step f g R) a es) (Along (step f g R) C a es) := by
  induction es generalizing a with
  | nil => exact ⟨fun h => h, fun _ h => iff_of_true h trivial, fun h _ _ => h⟩
  | cons e es ih => exact (Exact.single (hC a e) (hI a e)).trans (ih (step f g R a e))

end Watch
