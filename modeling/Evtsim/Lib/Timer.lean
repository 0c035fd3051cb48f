import Evtsim.Lib.Machine
import Mathlib.Algebra.Order.Ring.Int
import Mathlib.Tactic.Ring

/-!
# Deadline timers

A deadline timer has one expiry and any number of asynchronous waits. When the expiry is reached, the
handlers of all waits are queued; until then a cancellation or a new expiry aborts them. A handler
that is queued can no longer be stopped. The operations are those of `boost::asio::deadline_timer`, each
with the rule that is documented for it.

`Periodic` is the use of such a timer in which each handler moves the expiry on by a period and waits
again, while its owner starts and stops it. A stop that finds a handler queued leaves a *stray* one.
`throughout_single_iff` says that strays are the only way to more than one handler, `tick_rate` how
far they let the ticks run ahead of the clock.
-/

/-- The state of a `boost::asio::deadline_timer`, with its handlers in the queue of the `io_service`. -/
structure DeadlineTimer where
  expiry : ℤ
  /-- Waits for the expiry. -/
  waiting : ℕ
  /-- Handlers queued with success. -/
  due : ℕ
  /-- Handlers queued with an error. -/
  aborted : ℕ

namespace DeadlineTimer

/-- `async_wait`: the call returns at once, and its handler is called exactly once, when the timer has
expired or with the error `operation_aborted`. -/
def asyncWait (t : DeadlineTimer) : DeadlineTimer := { t with waiting := t.waiting + 1 }

/-- `cancel`: the handlers of all waits are called with `operation_aborted`, but for those that have been
queued because the timer had expired: these are called with success. -/
def cancel (t : DeadlineTimer) : DeadlineTimer :=
  { t with waiting := 0, aborted := t.aborted + t.waiting }

/-- `expires_at`: the waits for the old expiry are cancelled, as by `cancel`. -/
def expiresAt (t : DeadlineTimer) (e : ℤ) : DeadlineTimer := { t.cancel with expiry := e }

/-- The clock reads `now`: a timer expires when its expiry has been reached, and the waits on an expired
timer complete with success. -/
def elapse (t : DeadlineTimer) (now : ℤ) : DeadlineTimer :=
  if t.expiry ≤ now then { t with waiting := 0, due := t.due + t.waiting } else t

/-- Take a handler with success from the queue. -/
def take (t : DeadlineTimer) : DeadlineTimer := { t with due := t.due - 1 }

/-- Take a handler with an error from the queue. -/
def drop (t : DeadlineTimer) : DeadlineTimer := { t with aborted := t.aborted - 1 }

/-- What a handler does to the timer: move the expiry on and wait again. -/
def rearm (period : ℤ) (t : DeadlineTimer) : DeadlineTimer :=
  (t.take.expiresAt (t.expiry + period)).asyncWait

/-- Handlers that will run with success if nothing aborts them. -/
def outstanding (t : DeadlineTimer) : ℕ := t.waiting + t.due

section

variable (t : DeadlineTimer) (period now : ℤ)

@[simp] theorem expiry_asyncWait : t.asyncWait.expiry = t.expiry := rfl
@[simp] theorem due_asyncWait : t.asyncWait.due = t.due := rfl
@[simp] theorem expiry_cancel : t.cancel.expiry = t.expiry := rfl
@[simp] theorem due_cancel : t.cancel.due = t.due := rfl
@[simp] theorem outstanding_drop : t.drop.outstanding = t.outstanding := rfl
@[simp] theorem expiry_drop : t.drop.expiry = t.expiry := rfl
@[simp] theorem due_drop : t.drop.due = t.due := rfl
@[simp] theorem expiry_rearm : (t.rearm period).expiry = t.expiry + period := rfl
@[simp] theorem due_rearm : (t.rearm period).due = t.due - 1 := rfl

/-- `async_wait` adds one outstanding wait. -/
theorem outstanding_asyncWait : t.asyncWait.outstanding = t.outstanding + 1 := by
  simp only [outstanding, asyncWait]
  omega

/-- Only the handlers in the queue survive a cancellation. -/
theorem outstanding_cancel : t.cancel.outstanding = t.due := Nat.zero_add _

/-- A handler puts itself in the place of all waits. -/
theorem outstanding_rearm (h : 0 < t.due) : (t.rearm period).outstanding = t.due := by
  show 0 + 1 + (t.due - 1) = t.due
  omega

/-- Time that passes ends no wait by itself. -/
theorem outstanding_elapse : (t.elapse now).outstanding = t.outstanding := by
  unfold elapse
  split
  · exact (Nat.zero_add _).trans (Nat.add_comm ..)
  · rfl

/-- Time that passes does not move the expiry. -/
@[simp] theorem expiry_elapse : (t.elapse now).expiry = t.expiry := by
  unfold elapse
  split
  · rfl
  · rfl

/-- The clock queues all handlers or none. -/
theorem due_elapse :
    (t.expiry ≤ now ∧ (t.elapse now).due = t.outstanding) ∨ (t.elapse now).due = t.due := by
  unfold elapse
  by_cases h : t.expiry ≤ now
  · rw [if_pos h]
    exact .inl ⟨h, Nat.add_comm ..⟩
  · rw [if_neg h]
    exact .inr rfl

end

/-! ## Periodic use -/

/-- A timer and whether its owner has it running. -/
structure Periodic where
  timer : DeadlineTimer
  running : Bool

namespace Periodic

/-- What can happen to a periodic timer. -/
inductive Op
  | start
  | stop
  | elapse (now : ℤ)
  | tick
  | drop
  | skip
deriving DecidableEq

variable {period start B : ℤ}

def step (period : ℤ) (p : Periodic) : Op → Periodic
  | .start => ⟨p.timer.asyncWait, true⟩
  | .stop => ⟨p.timer.cancel, false⟩
  | .elapse now => { p with timer := p.timer.elapse now }
  | .tick => { p with timer := p.timer.rearm period }
  | .drop => { p with timer := p.timer.drop }
  | .skip => p

/-- The owner starts what does not run and stops what runs, and handlers come from the queue. -/
def Enabled (p : Periodic) : Op → Prop
  | .start => p.running = false
  | .stop => p.running = true
  | .tick => 0 < p.timer.due
  | .drop => 0 < p.timer.aborted
  | .elapse _ => True
  | .skip => True

/-- A stop that finds a handler queued. -/
def Stray (p : Periodic) (op : Op) : Prop := op = .stop ∧ 0 < p.timer.due

instance (p : Periodic) (op : Op) : Decidable (Stray p op) := instDecidableAnd

/-- The stops of a run that found a handler queued. -/
def strays (period : ℤ) (p : Periodic) : List Op → ℕ
  | [] => 0
  | op :: ops => (if Stray p op then 1 else 0) + strays period (step period p op) ops

/-- The handlers that have run in a run. -/
def ticks (ops : List Op) : ℕ := ops.count .tick

/-- A new timer, with its first expiry one period ahead. -/
def new (period start : ℤ) : Periodic := ⟨⟨start + period, 0, 0, 0⟩, false⟩

/-- One handler while the timer runs, none otherwise. -/
def Single (p : Periodic) : Prop := p.timer.outstanding = p.running.toNat

variable (period) in
/-- A running timer has a handler, and never more than the strays account for. -/
theorem outstanding_step {p : Periodic} {op : Op} {k : ℕ}
    (h : p.running.toNat ≤ p.timer.outstanding ∧ p.timer.outstanding ≤ p.running.toNat + k)
    (hop : Enabled p op) :
    (step period p op).running.toNat ≤ (step period p op).timer.outstanding ∧
      (step period p op).timer.outstanding ≤
        (step period p op).running.toNat + (k + if Stray p op then 1 else 0) := by
  obtain ⟨hlow, hhigh⟩ := h
  have hle : p.timer.due ≤ p.timer.outstanding := Nat.le_add_left ..
  cases op with
  | start =>
    have hrun : p.running = false := hop
    rw [hrun, Bool.toNat_false] at hlow hhigh
    simp only [step, Bool.toNat_true, outstanding_asyncWait]
    omega
  | stop =>
    have hrun : p.running = true := hop
    rw [hrun, Bool.toNat_true] at hlow hhigh
    simp only [step, Bool.toNat_false, outstanding_cancel]
    split <;> rename_i hstray
    · omega
    · have hnone : ¬ 0 < p.timer.due := fun hdue => hstray ⟨rfl, hdue⟩
      omega
  | tick =>
    have hdue : 0 < p.timer.due := hop
    simp only [step, outstanding_rearm _ _ hdue]
    have hone := Bool.toNat_le p.running
    omega
  | elapse now =>
    simp only [step, outstanding_elapse]
    omega
  | drop =>
    simp only [step, outstanding_drop]
    omega
  | skip =>
    simp only [step]
    omega

/-- **One handler.** A timer that starts with none has exactly one while it runs and none while it
does not exactly as long as no stop finds a handler queued. -/
theorem throughout_single_iff {p : Periodic} {ops : List Op} (hp : Single p)
    (hops : Machine.Along (step period) Enabled p ops) :
    Machine.Throughout (step period) Single p ops ↔
      Machine.Along (step period) (fun p op => ¬ Stray p op) p ops := by
  refine Machine.throughout_iff_along (I := fun _ => True) (fun _ _ _ _ => trivial)
    (fun p op _ hop hp => ?_) trivial hp hops
  have hstep := outstanding_step period (k := 0) ⟨hp.ge, hp.le⟩ hop
  by_cases hstray : Stray p op
  · obtain ⟨rfl, hdue⟩ := hstray
    refine iff_of_false (fun hsingle => ?_) (not_not_intro ⟨rfl, hdue⟩)
    have hzero : p.timer.due = 0 := (outstanding_cancel p.timer).symm.trans hsingle
    omega
  · rw [if_neg hstray] at hstep
    exact iff_of_true (Nat.le_antisymm hstep.2 hstep.1) hstray

/-! ## The rate of the ticks -/

/-- The state of a timer after `n` ticks and `k` strays, when no clock has read more than `B`. -/
structure OnSchedule (period start B : ℤ) (n k : ℕ) (p : Periodic) : Prop where
  expiry : p.timer.expiry = start + period * (n + 1)
  running_le : p.running.toNat ≤ p.timer.outstanding
  outstanding_le : p.timer.outstanding ≤ p.running.toNat + k
  rate : period * (n + p.timer.due) ≤ B - start + period * k

/-- A new timer is on schedule. -/
theorem onSchedule_new (hB : start ≤ B) : OnSchedule period start B 0 0 (new period start) where
  expiry := by
    show start + period = start + period * ((0 : ℕ) + 1)
    ring
  running_le := Nat.le_refl 0
  outstanding_le := Nat.le_refl 0
  rate := by
    show period * ((0 : ℕ) + (0 : ℕ)) ≤ B - start + period * (0 : ℕ)
    simp only [Nat.cast_zero, add_zero, mul_zero]
    omega

/-- No operation reads a clock beyond `B`. -/
def Within (B : ℤ) : Op → Prop
  | .elapse now => now ≤ B
  | _ => True

/-- Every operation keeps the timer on schedule, with one more tick or stray completion counted. -/
theorem OnSchedule.step {n k : ℕ} {p : Periodic} {op : Op} (hperiod : 0 ≤ period)
    (h : OnSchedule period start B n k p) (hop : Enabled p op) (hB : Within B op) :
    OnSchedule period start B (n + if op = .tick then 1 else 0) (k + if Stray p op then 1 else 0)
      (step period p op) := by
  have hout := outstanding_step period ⟨h.running_le, h.outstanding_le⟩ hop
  have hmore : period * (k : ℤ) ≤ period * (k + if Stray p op then 1 else 0 : ℕ) :=
    mul_le_mul_of_nonneg_left (by exact_mod_cast Nat.le_add_right k _) hperiod
  refine ⟨?_, hout.1, hout.2, ?_⟩
  · cases op with
    | tick =>
      show p.timer.expiry + period = start + period * ((n + 1 : ℕ) + 1)
      rw [h.expiry, Nat.cast_succ]
      ring
    | elapse now => exact (expiry_elapse p.timer now).trans h.expiry
    | start => exact h.expiry
    | stop => exact h.expiry
    | drop => exact h.expiry
    | skip => exact h.expiry
  · refine le_trans ?_ (Int.add_le_add_left hmore _)
    cases op with
    | tick =>
      have hdue : 0 < p.timer.due := hop
      have hsum : ((n + 1 : ℕ) : ℤ) + ((p.timer.due - 1 : ℕ) : ℤ) = n + p.timer.due := by omega
      exact (congrArg (period * ·) hsum).trans_le h.rate
    | elapse now =>
      have hnow : now ≤ B := hB
      rcases due_elapse p.timer now with ⟨hexpired, hdue⟩ | hdue
      · -- the clock has reached the expiry of tick `n + 1`
        show period * ((n : ℕ) + ((p.timer.elapse now).due : ℤ)) ≤ _
        have hone := Bool.toNat_le p.running
        have hall : ((p.timer.elapse now).due : ℤ) ≤ 1 + k := by
          rw [hdue]
          exact_mod_cast h.outstanding_le.trans (Nat.add_le_add_right hone k)
        calc period * ((n : ℕ) + ((p.timer.elapse now).due : ℤ))
            ≤ period * (n + (1 + k)) := mul_le_mul_of_nonneg_left (by omega) hperiod
          _ = p.timer.expiry - start + period * k := by rw [h.expiry]; ring
          _ ≤ B - start + period * k := by omega
      · exact (congrArg (fun d : ℕ => period * ((n : ℤ) + d)) hdue).trans_le h.rate
    | start => exact h.rate
    | stop => exact h.rate
    | drop => exact h.rate
    | skip => exact h.rate

/-- **Tick rate.** Up to the time `B` a timer runs at most one handler a period, and one more for each
stray. -/
theorem tick_rate {n k : ℕ} {p : Periodic} {ops : List Op} (hperiod : 0 ≤ period)
    (hp : OnSchedule period start B n k p) (hops : Machine.Along (step period) Enabled p ops)
    (hB : ∀ op ∈ ops, Within B op) :
    OnSchedule period start B (n + ticks ops) (k + strays period p ops)
      (Machine.run (step period) p ops) := by
  induction ops generalizing p n k with
  | nil => exact hp
  | cons op ops ih =>
    have hnext := hp.step hperiod hops.1 (hB op List.mem_cons_self)
    have hrest := ih hnext hops.2 fun op' hmem => hB op' (List.mem_cons_of_mem op hmem)
    have hticks : ticks (op :: ops) = (if op = .tick then 1 else 0) + ticks ops := by
      unfold ticks
      rw [List.count_cons, Nat.add_comm]
      simp only [beq_iff_eq]
    rw [Machine.run_cons, hticks, strays, ← Nat.add_assoc, ← Nat.add_assoc]
    exact hrest

variable (period) in
/-- A run of the timer ticks at most once a period, stray completions apart. -/
theorem ticks_le {ops : List Op} (hperiod : 0 ≤ period) (hstart : start ≤ B)
    (hops : Machine.Along (step period) Enabled (new period start) ops)
    (hB : ∀ op ∈ ops, Within B op) :
    period * ticks ops ≤ B - start + period * strays period (new period start) ops := by
  have hend := (tick_rate hperiod (onSchedule_new hstart) hops hB).rate
  rw [Nat.zero_add, Nat.zero_add] at hend
  refine le_trans (mul_le_mul_of_nonneg_left ?_ hperiod) hend
  exact Int.le_add_of_nonneg_right (Int.natCast_nonneg _)

end Periodic

end DeadlineTimer
