import Evtsim.BehaviorManager

/-!
# What an admin command touches

`outcome` says once what a command can do: it is rejected, it resets, or it sets one gate. From it
`rejected_command` reads the causes of a rejection off the answer, and `sameAt_command` says which gates
a command leaves alone. A counting gate that nothing else touches (`Counting`) then answers true as many
times as it was told.
-/

namespace Evtsim

namespace BehaviorManager

variable {D W : Type} (d : Double D) (E : Env W)

/-! ## Rejections -/

/-- The answers that report an error. -/
def errors : List String :=
  ["need at least one parameter\n", "unsupported action\n", "need two parameters to set to default\n",
    "need three parameters\n", "invalid parameters\n", "need a integer parameter > 0\n",
    "failed\nneed a integer parameter > 0\n", "need a prob parameter (0<=x<=1)\n",
    "failed\nneed a prob parameter (0<=x<=1)\n", "need a integer qty > 0\n", "failed\n"]

/-- The causes for which a command is rejected. -/
inductive Rejected : Command → Prop
  | noAction : Rejected (.set [])
  | unknownAction {a : String} {args : List String} (ha : a ∉ ["reset", "default", "count", "random"]) :
      Rejected (.set (a :: args))
  | defaultArgs {args : List String} (hargs : args.length ≠ 1) : Rejected (.set ("default" :: args))
  | defaultOperation {op : String} (hop : operation op = none) : Rejected (.set ["default", op])
  | countArgs {args : List String} (hargs : args.length ≠ 2) : Rejected (.set ("count" :: args))
  | countNumber {op n : String} (hn : ∀ x, stoi n = some x → x < 0) :
      Rejected (.set ["count", op, n])
  | countOperation {op n : String} (hop : operation op = none) : Rejected (.set ["count", op, n])
  | randomArgs {args : List String} (hargs : args.length ≠ 2) : Rejected (.set ("random" :: args))
  | randomNumber {op p : String} (hp : ∀ x, d.stod p = some x → d.outOfRange x = true) :
      Rejected (.set ["random", op, p])
  | randomOperation {op p : String} (hop : operation op = none) : Rejected (.set ["random", op, p])
  | executeArgs {args : List String} (hargs : args.length ≠ 1) : Rejected (.execute args)
  | executeNumber {n : String} (hn : ∀ x, stoi n = some x → x ≤ 0) : Rejected (.execute [n])

/-- What a command can do to a manager, and what it answers. -/
inductive Outcome (m : BehaviorManager D) : Command → BehaviorManager D × String → Prop
  | rejected {c : Command} {e : String} (hc : Rejected d c) (he : e ∈ errors) : Outcome m c (m, e)
  | reset {c : Command} (hc : IsReset c) : Outcome m c m.reset
  | default {op : String} {g : Gate} (hop : operation op = some g) :
      Outcome m (.set ["default", op]) (m.point g .default, op ++ " set to default\n")
  | count {op n : String} {g : Gate} {x : ℤ} (hop : operation op = some g) (hn : stoi n = some x)
      (hx : 0 ≤ x) :
      Outcome m (.set ["count", op, n])
        ({ m with times := Function.update m.times g x }.point g .count, op ++ " " ++ n ++ " times\n")
  | random {op p : String} {g : Gate} {x : D} (hop : operation op = some g) (hp : d.stod p = some x)
      (hx : d.outOfRange x = false) :
      Outcome m (.set ["random", op, p])
        ({ m with prob := Function.update m.prob g x }.point g .random,
          op ++ " set to random, prob=" ++ d.text x ++ "\n")
  | execute {n : String} {qty : ℤ} (hn : stoi n = some qty) (hqty : 0 < qty) :
      Outcome m (.execute [n])
        ({ m with behavior := Function.update m.behavior .execution .default, exeQty := qty },
          "execution qty=" ++ toString qty ++ "\n")

/-- `bm set default` answers and acts as listed. -/
theorem outcome_default (m : BehaviorManager D) (args : List String) :
    Outcome d m (.set ("default" :: args)) (m.setToDefault ("default" :: args)) := by
  match args with
  | [op] =>
    dsimp only [setToDefault]
    cases hop : operation op with
    | none => exact .rejected (.defaultOperation hop) (by simp [errors])
    | some g => exact .default hop
  | [] | _ :: _ :: _ => exact .rejected (.defaultArgs (by simp)) (by simp [errors])

/-- `bm set count` answers and acts as listed. -/
theorem outcome_count (m : BehaviorManager D) (args : List String) :
    Outcome d m (.set ("count" :: args)) (m.setCount ("count" :: args)) := by
  match args with
  | [op, n] =>
    dsimp only [setCount]
    cases hn : stoi n with
    | none => exact .rejected (.countNumber (by simp [hn])) (by simp [errors])
    | some x =>
      by_cases hx : x < 0
      · simp only [if_pos hx]
        exact .rejected (.countNumber (by simpa [hn] using hx)) (by simp [errors])
      · simp only [if_neg hx]
        cases hop : operation op with
        | none => exact .rejected (.countOperation hop) (by simp [errors])
        | some g => exact .count hop hn (by omega)
  | [] | [_] | _ :: _ :: _ :: _ => exact .rejected (.countArgs (by simp)) (by simp [errors])

/-- `bm set random` answers and acts as listed. -/
theorem outcome_random (m : BehaviorManager D) (args : List String) :
    Outcome d m (.set ("random" :: args)) (m.setRandom d ("random" :: args)) := by
  match args with
  | [op, p] =>
    dsimp only [setRandom]
    cases hp : d.stod p with
    | none => exact .rejected (.randomNumber (by simp [hp])) (by simp [errors])
    | some x =>
      by_cases hx : d.outOfRange x = true
      · simp only [if_pos hx]
        exact .rejected (.randomNumber (by simpa [hp] using hx)) (by simp [errors])
      · simp only [if_neg hx]
        cases hop : operation op with
        | none => exact .rejected (.randomOperation hop) (by simp [errors])
        | some g => exact .random hop hp (by simpa using hx)
  | [] | [_] | _ :: _ :: _ :: _ => exact .rejected (.randomArgs (by simp)) (by simp [errors])

/-- `bm execute` answers and acts as listed. -/
theorem outcome_execute (m : BehaviorManager D) (args : List String) :
    Outcome d m (.execute args) (m.setExecutionQty args) := by
  match args with
  | [n] =>
    dsimp only [setExecutionQty]
    cases hn : stoi n with
    | none => exact .rejected (.executeNumber (by simp [hn])) (by simp [errors])
    | some qty =>
      by_cases hqty : qty ≤ 0
      · simp only [if_pos hqty]
        exact .rejected (.executeNumber (by simpa [hn] using hqty)) (by simp [errors])
      · simp only [if_neg hqty]
        exact .execute hn (by omega)
  | [] | _ :: _ :: _ => exact .rejected (.executeArgs (by simp)) (by simp [errors])

/-- Every command has one of the six outcomes. -/
theorem outcome (m : BehaviorManager D) (c : Command) : Outcome d m c (m.command d c) := by
  cases c with
  | reset => exact .reset (.inl rfl)
  | execute args => exact outcome_execute d m args
  | set args =>
    simp only [command]
    unfold setAction
    split
    · exact .rejected .noAction (by simp [errors])
    · exact .reset (.inr ⟨_, rfl⟩)
    · exact outcome_default d m _
    · exact outcome_count d m _
    · exact outcome_random d m _
    · -- an action that is none of the four
      rename_i hnone hreset hdefault hcount hrandom
      rcases args with _ | ⟨a, args⟩
      · exact absurd rfl hnone
      · refine .rejected (.unknownAction fun ha => ?_) (by simp [errors])
        simp only [List.mem_cons, List.not_mem_nil, or_false] at ha
        rcases ha with rfl | rfl | rfl | rfl
        · exact hreset _ rfl
        · exact hdefault _ rfl
        · exact hcount _ rfl
        · exact hrandom _ rfl

/-! ## Answers -/

/-- How the answers of the commands that set one gate start. -/
def successes : List String :=
  ["login", "logout", "new_order", "modify_order", "replace_order", "cancel_order", "execution"]

/-- No error starts like an answer to a successful command. -/
theorem not_prefix_errors : ∀ p ∈ successes, ∀ e ∈ errors, ¬ p.toList <+: e.toList := by
  decide +kernel

/-- No error starts like a success. -/
theorem notMem_errors {p : String} (hp : p ∈ successes) (r : String) : p ++ r ∉ errors := by
  intro hmem
  apply not_prefix_errors p hp _ hmem
  rw [String.toList_append]
  exact List.prefix_append _ _

/-- The answer to a successful command starts with the name of its operation. -/
theorem mem_successes {op : String} {g : Gate} (hop : operation op = some g) : op ∈ successes := by
  unfold operation at hop
  split at hop <;> simp_all [successes]

/-- A cause of a rejection is none of what the other outcomes ask for. -/
theorem not_rejected_reset {c : Command} (hc : IsReset c) : ¬ Rejected d c := by
  rintro (_ | ha | _ | _ | _ | _ | _ | _ | _ | _ | _ | _) <;> simp_all [IsReset]

/-- `bm set default` is accepted for every operation. -/
theorem not_rejected_default {op : String} {g : Gate} (hop : operation op = some g) :
    ¬ Rejected d (.set ["default", op]) := by
  intro h
  generalize hc : Command.set ["default", op] = c at h
  cases h <;> grind

/-- `bm set count` is accepted for every operation and every count that is not negative. -/
theorem not_rejected_count {op n : String} {g : Gate} {x : ℤ} (hop : operation op = some g)
    (hn : stoi n = some x) (hx : 0 ≤ x) : ¬ Rejected d (.set ["count", op, n]) := by
  intro h
  generalize hc : Command.set ["count", op, n] = c at h
  cases h <;> grind

/-- `bm set random` is accepted for every operation and every probability. -/
theorem not_rejected_random {op p : String} {g : Gate} {x : D} (hop : operation op = some g)
    (hp : d.stod p = some x) (hx : d.outOfRange x = false) :
    ¬ Rejected d (.set ["random", op, p]) := by
  intro h
  generalize hc : Command.set ["random", op, p] = c at h
  cases h <;> grind

/-- `bm execute` is accepted for every positive quantity. -/
theorem not_rejected_execute {n : String} {qty : ℤ} (hn : stoi n = some qty) (hqty : 0 < qty) :
    ¬ Rejected d (.execute [n]) := by
  intro h
  generalize hc : Command.execute [n] = c at h
  cases h <;> grind

/-- **A command answers with an error** exactly for the causes of a rejection, and then nothing of the
manager changes. -/
theorem rejected_command (m : BehaviorManager D) (c : Command) :
    ((m.command d c).2 ∈ errors ↔ Rejected d c) ∧ (Rejected d c → (m.command d c).1 = m) := by
  have h := outcome d m c
  generalize m.command d c = r at h
  -- every other outcome has a text that is no error and no cause of a rejection
  have hother : r.2 ∉ errors → ¬ Rejected d c →
      (r.2 ∈ errors ↔ Rejected d c) ∧ (Rejected d c → r.1 = m) :=
    fun htext hnot => ⟨iff_of_false htext hnot, fun h => absurd h hnot⟩
  cases h with
  | rejected hc he => exact ⟨iff_of_true he hc, fun _ => rfl⟩
  | reset hc => exact hother (by simp [BehaviorManager.reset, errors]) (not_rejected_reset d hc)
  | default hop => exact hother (notMem_errors (mem_successes hop) _) (not_rejected_default d hop)
  | count hop hn hx =>
    refine hother ?_ (not_rejected_count d hop hn hx)
    rw [String.append_assoc, String.append_assoc]
    exact notMem_errors (mem_successes hop) _
  | random hop hp hx =>
    refine hother ?_ (not_rejected_random d hop hp hx)
    rw [String.append_assoc, String.append_assoc]
    exact notMem_errors (mem_successes hop) _
  | execute hn hqty =>
    refine hother ?_ (not_rejected_execute d hn hqty)
    have htext : "execution qty=" = "execution" ++ " qty=" := rfl
    rw [htext, String.append_assoc, String.append_assoc]
    exact notMem_errors (by simp [successes]) _

/-! ## Gates that a command leaves alone -/

/-- `bm set default X`, `bm set count X ...`, `bm set random X ...`: the word behind the action names
the gate. -/
def Names (g : Gate) (c : Command) : Prop :=
  ∃ a op args, c = .set (a :: op :: args) ∧ operation op = some g

/-- A command that neither names the gate nor resets, nor is a `bm execute` if the gate is that of the
executions. -/
structure Leaves (g : Gate) (c : Command) : Prop where
  reset : ¬ IsReset c
  names : ¬ Names g c
  execute : g = .execution → ∀ args, c ≠ .execute args

/-- Two managers that agree on everything a gate reads, and for executions on the quantity. -/
structure SameAt (g : Gate) (m m' : BehaviorManager D) : Prop where
  behavior : m'.behavior g = m.behavior g
  prob : m'.prob g = m.prob g
  times : m'.times g = m.times g
  exeQty : g = .execution → m'.exeQty = m.exeQty

/-- A gate is left alone when another one is pointed elsewhere. -/
theorem sameAt_point {g g' : Gate} (hg : g ≠ g') (m : BehaviorManager D) (b : Behavior) :
    SameAt g m (m.point g' b) where
  behavior := Function.update_of_ne hg _ _
  prob := rfl
  times := rfl
  exeQty := by
    rintro rfl
    exact if_neg (Ne.symm hg)

/-- **A command changes only the gate it names.** -/
theorem sameAt_command {g : Gate} {c : Command} (hc : Leaves g c) (m : BehaviorManager D) :
    SameAt g m (m.command d c).1 := by
  have h := outcome d m c
  generalize m.command d c = r at h
  cases h with
  | rejected => exact ⟨rfl, rfl, rfl, fun _ => rfl⟩
  | reset hreset => exact absurd hreset hc.reset
  | @default op g' hop =>
    have hne : g ≠ g' := by
      rintro rfl
      exact hc.names ⟨_, _, _, rfl, hop⟩
    exact sameAt_point hne m _
  | @count op n g' x hop =>
    have hne : g ≠ g' := by
      rintro rfl
      exact hc.names ⟨_, _, _, rfl, hop⟩
    have hpoint := sameAt_point hne { m with times := Function.update m.times g' x } .count
    exact ⟨hpoint.behavior, hpoint.prob, Function.update_of_ne hne _ _, hpoint.exeQty⟩
  | @random op p g' x hop =>
    have hne : g ≠ g' := by
      rintro rfl
      exact hc.names ⟨_, _, _, rfl, hop⟩
    have hpoint := sameAt_point hne { m with prob := Function.update m.prob g' x } .random
    exact ⟨hpoint.behavior, Function.update_of_ne hne _ _, hpoint.times, hpoint.exeQty⟩
  | execute =>
    have hne : g ≠ .execution := fun hg => hc.execute hg _ rfl
    exact ⟨Function.update_of_ne hne _ _, rfl, rfl, fun hg => absurd hg hne⟩

/-! ## A counting gate -/

/-- The gate lets `k` more queries through. -/
structure Counting (g : Gate) (k : ℕ) (m : BehaviorManager D) : Prop where
  behavior : m.behavior g = .count
  times : m.times g = k

/-- Managers that are the same at a gate count the same units there. -/
theorem SameAt.counting {g : Gate} {k : ℕ} {m m' : BehaviorManager D} (h : SameAt g m m')
    (hm : Counting g k m) : Counting g k m' :=
  ⟨h.behavior.trans hm.behavior, h.times.trans hm.times⟩

/-- The query of a counting gate answers by the count and takes one from it. -/
theorem gate_counting {g : Gate} {k : ℕ} {x : BehaviorManager D × W} (hx : Counting g k x.1) :
    (gate d E g x).1 = decide (0 < k) ∧ Counting g (k - 1) (gate d E g x).2.1 := by
  unfold gate
  simp only [hx.behavior, hx.times]
  by_cases hk : 0 < k
  · -- the only branch of a gate that writes: one less is left
    simp only [Int.natCast_pos, hk, if_true, decide_true, true_and]
    refine ⟨hx.behavior, ?_⟩
    simp only [Function.update_self]
    omega
  · obtain rfl : k = 0 := by omega
    simp only [Int.natCast_pos, hk, if_false, decide_false, true_and]
    exact hx

/-- The query of another gate touches nothing of it. -/
theorem sameAt_gate {g g' : Gate} (hg : g ≠ g') (x : BehaviorManager D × W) :
    SameAt g x.1 (gate d E g' x).2.1 := by
  unfold gate
  split
  · exact ⟨rfl, rfl, rfl, fun _ => rfl⟩
  · exact ⟨rfl, rfl, rfl, fun _ => rfl⟩
  · split
    · exact ⟨rfl, rfl, Function.update_of_ne hg _ _, fun _ => rfl⟩
    · exact ⟨rfl, rfl, rfl, fun _ => rfl⟩

/-- The gate is queried. -/
def asks (g : Gate) : Action → Bool
  | .query (.gate g') => g' = g
  | _ => false

/-- The answers of one gate among everything that happens to a manager. -/
def answersOf (g : Gate) (x : BehaviorManager D × W) : List Action → List Bool
  | [] => []
  | a :: hs =>
    if asks g a then (gate d E g x).1 :: answersOf g (act d E x a) hs
    else answersOf g (act d E x a) hs

/-- What is not a query of the gate, and no command that concerns it, leaves its count. -/
theorem counting_act {g : Gate} {k : ℕ} {x : BehaviorManager D × W} (hx : Counting g k x.1)
    {a : Action} (ha : asks g a = false) (hc : ∀ c, a = .command c → Leaves g c) :
    Counting g k (act d E x a).1 := by
  cases a with
  | command c => exact (sameAt_command d (hc c rfl) x.1).counting hx
  | query q =>
    cases q with
    | gate g' =>
      have hne : g ≠ g' := by
        rintro rfl
        simp [asks] at ha
      exact (sameAt_gate d E hne x).counting hx
    | executionQty =>
      -- `execution_qty()` writes `exe_qty`, which no gate reads
      simp only [act, query]
      unfold executionQty
      split
      · exact hx
      · exact ⟨hx.behavior, hx.times⟩

/-- A counting gate answers true as long as its count lasts, whatever happens in between. -/
theorem answersOf_counting {g : Gate} {k : ℕ} {x : BehaviorManager D × W} (hx : Counting g k x.1)
    {hs : List Action} (hhs : ∀ c, .command c ∈ hs → Leaves g c) :
    answersOf d E g x hs = (List.range (hs.countP (asks g))).map fun i => decide (i < k) := by
  induction hs generalizing k x with
  | nil => rfl
  | cons a hs ih =>
    have hrest : ∀ c, .command c ∈ hs → Leaves g c := fun c hc => hhs c (List.mem_cons_of_mem a hc)
    unfold answersOf
    by_cases ha : asks g a = true
    · -- a query of the gate: the rest is answered with one less
      obtain ⟨hanswer, hnext⟩ := gate_counting d E hx
      have hact : act d E x a = (gate d E g x).2 := by
        unfold asks at ha
        split at ha
        · rw [of_decide_eq_true ha]
          rfl
        · cases ha
      rw [if_pos ha, List.countP_cons_of_pos ha, List.range_succ_eq_map, List.map_cons, List.map_map,
        hanswer, hact, ih hnext hrest]
      congr 1
      apply List.map_congr_left
      intro i _
      simp only [Function.comp, decide_eq_decide]
      omega
    · rw [if_neg ha, List.countP_cons_of_neg ha]
      refine ih (counting_act d E hx (by simpa using ha) ?_) hrest
      rintro c rfl
      exact hhs c List.mem_cons_self

/-- **Admin commands change only the gate they name, and failed ones change nothing.** A command that
answers with an error, which it does exactly for the causes of a rejection, leaves the manager as it
is. A command that leaves a gate alone changes nothing of it. And behind a `bm set count` the gate
answers true to as many queries as it was told, and false to all further ones, until it is concerned
again. -/
theorem adminCommands :
    (∀ (m : BehaviorManager D) (c : Command),
      ((m.command d c).2 ∈ errors ↔ Rejected d c) ∧ (Rejected d c → (m.command d c).1 = m)) ∧
    (∀ (m : BehaviorManager D) (c : Command) (g : Gate),
      Leaves g c → SameAt g m (m.command d c).1) ∧
    ∀ (x : BehaviorManager D × W) (op n : String) (g : Gate) (k : ℕ) (hs : List Action),
      operation op = some g → stoi n = some (k : ℤ) → (∀ c, .command c ∈ hs → Leaves g c) →
        answersOf d E g (act d E x (.command (.set ["count", op, n]))) hs =
          (List.range (hs.countP (asks g))).map fun i => decide (i < k) := by
  refine ⟨rejected_command d, fun m c g hc => sameAt_command d hc m, ?_⟩
  intro x op n g k hs hop hn hhs
  apply answersOf_counting d E _ hhs
  have h0 : ¬ (k : ℤ) < 0 := by omega
  simp only [act, command, setAction, setCount, hn, if_neg h0, hop]
  exact ⟨Function.update_self _ _ _, Function.update_self _ _ _⟩

/-- Two logins are let through, with a command for another gate in between. -/
theorem adminCommands_login :
    answersOf oneDouble quietEnv .login
      (act oneDouble quietEnv (new oneDouble, ()) (.command (.set ["count", "login", "2"])))
      [.query (.gate .login), .command (.set ["random", "logout", "1"]), .query (.gate .login),
        .query (.gate .login)] = [true, true, false] := by
  refine (adminCommands oneDouble quietEnv).2.2 (new oneDouble, ()) "login" "2" .login 2 _ rfl
    (by decide +kernel) ?_
  intro c hc
  simp only [List.mem_cons, List.not_mem_nil, or_false, false_or, reduceCtorEq,
    Action.command.injEq] at hc
  subst hc
  refine ⟨by simp [IsReset], ?_, fun hg => by cases hg⟩
  rintro ⟨a, op, args, heq, hop⟩
  cases heq
  simp [operation] at hop

end BehaviorManager

end Evtsim
