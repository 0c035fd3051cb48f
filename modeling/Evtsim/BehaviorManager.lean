import Evtsim.Environment
import Evtsim.Lib.Machine

/-!
# The behaviour manager (`behavior_manager.h`, `behavior_manager.cpp`)

Each of the seven gates points to one of three behaviours, and the execution quantity is handed out
once. Admin commands set both. The type `D` of probabilities is that of `double`s, with the operations
of `Double`: nothing is assumed of them. What is written to the log is left out.

`reset_iff` says when a reset makes a manager indistinguishable from a new one: when no quantity is
left from a `bm execute`.
-/

namespace Evtsim

/-- What the manager does with `double`s. -/
structure Double (D : Type) where
  one : D
  /-- `stod`, with nothing for an exception. -/
  stod : String → Option D
  /-- `x < 0 or x > 1` -/
  outOfRange : D → Bool
  /-- `r < prob * 100` -/
  exceeds : D → ℕ → Bool
  /-- How a stream prints it. -/
  text : D → String

/-- A type of `double`s with the value 1 only, for concrete runs. -/
def oneDouble : Double Unit :=
  { one := ()
    stod := fun s => if s = "1" then some () else none
    outOfRange := fun _ => false
    exceeds := fun _ r => r < 100
    text := fun _ => "1" }

/-- `stoi`: blanks, a sign and digits, whatever follows; nothing for an exception. -/
def stoi (s : String) : Option ℤ :=
  let cs := s.toList.dropWhile fun c => c = ' ' ∨ 9 ≤ c.toNat ∧ c.toNat ≤ 13
  let neg := cs.head? = some '-'
  let cs := if neg || cs.head? = some '+' then cs.tail else cs
  let digits := cs.takeWhile Char.isDigit
  let n : ℤ := digits.foldl (fun n c => 10 * n + (c.toNat - '0'.toNat : ℕ)) 0
  let n := if neg then -n else n
  if digits = [] ∨ n < -2147483648 ∨ 2147483647 < n then none else some n

/-- The behaviour that a gate points to. -/
inductive Behavior
  | default | random | count
deriving DecidableEq

/-- `BehaviorManager`: `_rb`, `_cb`, the pointers and `exe_qty`. -/
structure BehaviorManager (D : Type) where
  prob : Gate → D
  times : Gate → ℤ
  behavior : Gate → Behavior
  exeQty : ℤ

namespace BehaviorManager

variable {D W : Type} (d : Double D) (E : Env W)

/-- The constructor. -/
def new : BehaviorManager D :=
  { prob := fun _ => d.one, times := fun _ => 0, behavior := fun _ => .default, exeQty := -1 }

/-! ## Gates -/

/-- `login()`, `new_order()`, ...: the default behaviour lets everything through, the random one draws,
the counting one counts down. -/
def gate (g : Gate) (x : BehaviorManager D × W) : Bool × BehaviorManager D × W :=
  match x.1.behavior g with
  | .default => (true, x)
  | .random =>
    let r := E.rand x.2
    (d.exceeds (x.1.prob g) (r.1 % 100), x.1, r.2)
  | .count =>
    if 0 < x.1.times g then
      (true, { x.1 with times := Function.update x.1.times g (x.1.times g - 1) }, x.2)
    else (false, x)

/-- `execution_qty()` -/
def executionQty (m : BehaviorManager D) : ℤ × BehaviorManager D :=
  if m.exeQty = -1 then (-1, m) else (m.exeQty, { m with exeQty := 0 })

/-! ## Admin commands

Each returns the manager and its response. -/

/-- The name of an operation. -/
def operation : String → Option Gate
  | "login" => some .login
  | "logout" => some .logout
  | "new_order" => some .newOrder
  | "modify_order" => some .modifyOrder
  | "replace_order" => some .replaceOrder
  | "cancel_order" => some .cancelOrder
  | "execution" => some .execution
  | _ => none

/-- Point a gate to a behaviour. Only for executions the quantity is taken back too. -/
def point (m : BehaviorManager D) (g : Gate) (b : Behavior) : BehaviorManager D :=
  { m with
    behavior := Function.update m.behavior g b
    exeQty := if g = .execution then -1 else m.exeQty }

/-- `reset_to_default` -/
def resetToDefault (m : BehaviorManager D) : BehaviorManager D :=
  { m with behavior := fun _ => .default }

/-- `reset` -/
def reset (m : BehaviorManager D) : BehaviorManager D × String :=
  (m.resetToDefault, "all set to default\n")

/-- `set_to_default` -/
def setToDefault (m : BehaviorManager D) (args : List String) : BehaviorManager D × String :=
  match args with
  | [_, op] =>
    match operation op with
    | none => (m, "invalid parameters\n")
    | some g => (m.point g .default, op ++ " set to default\n")
  | _ => (m, "need two parameters to set to default\n")

/-- `set_count` -/
def setCount (m : BehaviorManager D) (args : List String) : BehaviorManager D × String :=
  match args with
  | [_, op, n] =>
    match stoi n with
    | none => (m, "failed\nneed a integer parameter > 0\n")
    | some x =>
      if x < 0 then (m, "need a integer parameter > 0\n")
      else
        match operation op with
        | none => (m, "invalid parameters\n")
        | some g =>
          ({ m with times := Function.update m.times g x }.point g .count,
            op ++ " " ++ n ++ " times\n")
  | _ => (m, "need three parameters\n")

/-- `set_random` -/
def setRandom (m : BehaviorManager D) (args : List String) : BehaviorManager D × String :=
  match args with
  | [_, op, p] =>
    match d.stod p with
    | none => (m, "failed\nneed a prob parameter (0<=x<=1)\n")
    | some x =>
      if d.outOfRange x then (m, "need a prob parameter (0<=x<=1)\n")
      else
        match operation op with
        | none => (m, "invalid parameters\n")
        | some g =>
          ({ m with prob := Function.update m.prob g x }.point g .random,
            op ++ " set to random, prob=" ++ d.text x ++ "\n")
  | _ => (m, "need three parameters\n")

/-- `set_execution_qty` -/
def setExecutionQty (m : BehaviorManager D) (args : List String) : BehaviorManager D × String :=
  match args with
  | [n] =>
    match stoi n with
    | none => (m, "failed\n")
    | some qty =>
      if qty ≤ 0 then (m, "need a integer qty > 0\n")
      else
        ({ m with behavior := Function.update m.behavior .execution .default, exeQty := qty },
          "execution qty=" ++ toString qty ++ "\n")
  | _ => (m, "need a integer qty > 0\n")

/-- `set_action` -/
def setAction (m : BehaviorManager D) (args : List String) : BehaviorManager D × String :=
  match args with
  | [] => (m, "need at least one parameter\n")
  | "reset" :: _ => m.reset
  | "default" :: _ => m.setToDefault args
  | "count" :: _ => m.setCount args
  | "random" :: _ => m.setRandom d args
  | _ => (m, "unsupported action\n")

/-- The admin commands that concern the manager itself. -/
inductive Command
  | set (args : List String)
  | reset
  | execute (args : List String)

/-- One admin command. -/
def command (m : BehaviorManager D) : Command → BehaviorManager D × String
  | .set args => m.setAction d args
  | .reset => m.reset
  | .execute args => m.setExecutionQty args

/-! ## Histories -/

/-- A query of a session. -/
inductive Query
  | gate (g : Gate)
  | executionQty

/-- The answer to a query: a gate answers 0 or 1. -/
def query (x : BehaviorManager D × W) : Query → ℤ × BehaviorManager D × W
  | .gate g =>
    let a := gate d E g x
    (if a.1 then 1 else 0, a.2)
  | .executionQty =>
    let a := x.1.executionQty
    (a.1, a.2, x.2)

/-- The answers to a sequence of queries. -/
def answers (x : BehaviorManager D × W) : List Query → List ℤ
  | [] => []
  | q :: qs => (query d E x q).1 :: answers (query d E x q).2 qs

/-- What can happen to a manager. -/
inductive Action
  | command (c : Command)
  | query (q : Query)

/-- One action. -/
def act (x : BehaviorManager D × W) : Action → BehaviorManager D × W
  | .command c => ((x.1.command d c).1, x.2)
  | .query q => (query d E x q).2

/-- `bm reset` or `bm set reset` -/
def IsReset (c : Command) : Prop := c = .reset ∨ ∃ args, c = .set ("reset" :: args)

/-- `bm set default X` for each of the seven operations. -/
def defaultCommands : List Command :=
  ["login", "logout", "new_order", "modify_order", "replace_order", "cancel_order",
    "execution"].map fun op => .set ["default", op]

/-- Behind a reset every sequence of queries gets the answers of a new manager, and those behind a
`bm set default` for every operation. -/
def ResetsAll (x : BehaviorManager D × W) : Prop :=
  ∀ c, IsReset c → ∀ qs,
    answers d E ((x.1.command d c).1, x.2) qs = answers d E (new d, x.2) qs ∧
      answers d E ((x.1.command d c).1, x.2) qs =
        answers d E (Machine.run (act d E) x (defaultCommands.map .command)) qs

/-- Whether a command arms the execution quantity, takes it back, or leaves it. -/
def arms : Command → Option Bool
  | .execute [n] => (stoi n).bind fun qty => if qty ≤ 0 then none else some true
  | .set ["default", op] => if operation op = some .execution then some false else none
  | .set ["count", op, n] =>
    (stoi n).bind fun x =>
      if x < 0 ∨ operation op ≠ some .execution then none else some false
  | .set ["random", op, p] =>
    (d.stod p).bind fun x =>
      if d.outOfRange x ∨ operation op ≠ some .execution then none else some false
  | _ => none

/-- Whether a quantity is armed behind a history: the last command that arms it or takes it back was a
`bm execute`. -/
def armed (hs : List Action) : Bool :=
  hs.foldl (fun b a =>
    match a with
    | .command c => (arms d c).getD b
    | .query _ => b) false

/-! ## The execution quantity -/

/-- A quantity is there that nothing but a command takes back. -/
def Armed (m : BehaviorManager D) : Prop := m.exeQty ≠ -1

/-- Setting the behavior of executions takes the quantity back. -/
theorem armed_point (m : BehaviorManager D) (g : Gate) (b : Behavior) :
    Armed (m.point g b) ↔ g ≠ .execution ∧ Armed m := by
  unfold Armed point
  dsimp only
  split
  · rename_i hg
    simp [hg]
  · rename_i hg
    simp [hg]

/-- `bm set default` takes the quantity back for executions only. -/
theorem armed_setToDefault (m : BehaviorManager D) (op : String) :
    Armed (m.setToDefault ["default", op]).1 ↔ operation op ≠ some .execution ∧ Armed m := by
  dsimp only [setToDefault]
  rcases hop : operation op with _ | g
  · simp
  · simp [armed_point]

/-- Neither do `bm set count` and `bm set random` for any other operation. -/
theorem armed_setCount (m : BehaviorManager D) (op n : String) :
    Armed (m.setCount ["count", op, n]).1 ↔
      ((stoi n).bind fun x => if x < 0 ∨ operation op ≠ some .execution then none
        else some false) ≠ some false ∧ Armed m := by
  dsimp only [setCount]
  rcases hn : stoi n with _ | x
  · simp
  dsimp only [Option.bind_some]
  by_cases hx : x < 0
  · simp [hx]
  rcases hop : operation op with _ | g
  · simp [hx]
  · have hsame : Armed ({ m with times := Function.update m.times g x }) ↔ Armed m := Iff.rfl
    by_cases hg : g = .execution <;> simp [hx, hg, armed_point, hsame]

/-- `bm set random` takes the quantity back for executions only. -/
theorem armed_setRandom (m : BehaviorManager D) (op p : String) :
    Armed (m.setRandom d ["random", op, p]).1 ↔
      ((d.stod p).bind fun x => if d.outOfRange x ∨ operation op ≠ some .execution then none
        else some false) ≠ some false ∧ Armed m := by
  dsimp only [setRandom]
  rcases hp : d.stod p with _ | x
  · simp
  dsimp only [Option.bind_some]
  by_cases hx : d.outOfRange x = true
  · simp [hx]
  rcases hop : operation op with _ | g
  · simp [hx]
  · have hsame : Armed ({ m with prob := Function.update m.prob g x }) ↔ Armed m := Iff.rfl
    by_cases hg : g = .execution <;> simp [hx, hg, armed_point, hsame]

/-- What a command does to the quantity. -/
theorem armed_command (m : BehaviorManager D) (c : Command) :
    Armed (m.command d c).1 ↔ (arms d c = some true ∨ arms d c = none ∧ Armed m) := by
  have hkeep : ∀ o : Option Bool, o ≠ some true →
      (o ≠ some false ∧ Armed m ↔ o = some true ∨ o = none ∧ Armed m) := by
    rintro (_ | _ | _) h
    · simp
    · simp
    · exact absurd rfl h
  cases c with
  | reset => exact ⟨fun h => .inr ⟨rfl, h⟩, fun h => h.elim (fun h => nomatch h) fun h => h.2⟩
  | execute args =>
    match args with
    | [] => simp [command, setExecutionQty, arms]
    | _ :: _ :: _ => simp [command, setExecutionQty, arms]
    | [n] =>
      dsimp only [command, setExecutionQty, arms]
      rcases hn : stoi n with _ | qty
      · simp
      · by_cases hqty : qty ≤ 0
        · simp [hqty]
        · have hne : qty ≠ -1 := by omega
          simp [hqty, Armed, hne]
  | set args =>
    show Armed (m.setAction d args).1 ↔ _
    unfold setAction
    split
    · simp [arms]
    · simp [arms, reset, resetToDefault, Armed]
    · rename_i rest
      match rest with
      | [] => simp [setToDefault, arms]
      | _ :: _ :: _ => simp [setToDefault, arms]
      | [op] =>
        rw [armed_setToDefault, arms]
        by_cases hop : operation op = some .execution <;> simp [hop]
    · rename_i rest
      match rest with
      | [] => simp [setCount, arms]
      | [_] => simp [setCount, arms]
      | _ :: _ :: _ :: _ => simp [setCount, arms]
      | [op, n] =>
        rw [armed_setCount, arms]
        apply hkeep
        rcases stoi n with _ | x
        · exact fun h => nomatch h
        · rw [Option.bind_some]
          split <;> exact fun h => nomatch h
    · rename_i rest
      match rest with
      | [] => simp [setRandom, arms]
      | [_] => simp [setRandom, arms]
      | _ :: _ :: _ :: _ => simp [setRandom, arms]
      | [op, p] =>
        rw [armed_setRandom, arms]
        apply hkeep
        rcases d.stod p with _ | x
        · exact fun h => nomatch h
        · rw [Option.bind_some]
          split <;> exact fun h => nomatch h
    · rename_i hdefault hcount hrandom
      have harms : arms d (.set args) = none := by
        unfold arms
        split
        · rename_i heq
          cases heq
        · rename_i heq
          cases heq
          exact absurd rfl (hdefault _)
        · rename_i heq
          cases heq
          exact absurd rfl (hcount _)
        · rename_i heq
          cases heq
          exact absurd rfl (hrandom _)
        · rfl
      simp [harms]

/-- A query takes nothing back: a quantity that has been handed out leaves 0. -/
theorem armed_query (x : BehaviorManager D × W) (q : Query) :
    Armed (query d E x q).2.1 ↔ Armed x.1 := by
  unfold Armed
  cases q with
  | gate g =>
    show (gate d E g x).2.1.exeQty ≠ -1 ↔ _
    unfold gate
    split
    · exact Iff.rfl
    · exact Iff.rfl
    · split <;> exact Iff.rfl
  | executionQty =>
    show (executionQty x.1).2.exeQty ≠ -1 ↔ _
    unfold executionQty
    split
    · exact Iff.rfl
    · rename_i hne
      refine iff_of_true ?_ hne
      show (0 : ℤ) ≠ -1
      decide

/-- A quantity is armed behind a history exactly if its last command on it says so. -/
theorem armed_run (hs : List Action) (w : W) :
    Armed (Machine.run (act d E) (new d, w) hs).1 ↔ armed d hs = true := by
  induction hs using List.reverseRecOn with
  | nil => exact iff_of_false (fun h => h rfl) Bool.false_ne_true
  | append_singleton hs a ih =>
    rw [Machine.run_append, Machine.run_cons, Machine.run_nil, armed, List.foldl_append,
      List.foldl_cons, List.foldl_nil, ← armed]
    cases a with
    | query q => exact (armed_query d E _ q).trans ih
    | command c =>
      rw [act, armed_command, ih]
      show _ ↔ (arms d c).getD (armed d hs) = true
      rcases arms d c with _ | b
      · simp
      · simp

/-! ## Resetting -/

/-- The answer of a manager with everything at its default. -/
def defaultAnswer : Query → ℤ
  | .gate _ => 1
  | .executionQty => -1

/-- Everything is at its default. -/
structure IsDefault (m : BehaviorManager D) : Prop where
  behavior : m.behavior = fun _ => .default
  exeQty : m.exeQty = -1

/-- At default every query is answered as by default. -/
theorem IsDefault.answers {m : BehaviorManager D} (h : IsDefault m) (w : W) (qs : List Query) :
    answers d E (m, w) qs = qs.map defaultAnswer := by
  induction qs with
  | nil => rfl
  | cons q qs ih =>
    have hq : query d E (m, w) q = (defaultAnswer q, m, w) := by
      cases q with
      | gate g =>
        have hg : gate d E g (m, w) = (true, m, w) := by
          unfold gate
          dsimp only
          rw [h.behavior]
        show ((if (gate d E g (m, w)).1 then 1 else 0 : ℤ), (gate d E g (m, w)).2) = _
        rw [hg]
        rfl
      | executionQty =>
        show ((executionQty m).1, (executionQty m).2, w) = _
        unfold executionQty
        rw [if_pos h.exeQty]
        rfl
    rw [BehaviorManager.answers, hq, ih]
    rfl

/-- `bm set default` for every operation brings everything to its default, the quantity included. -/
theorem isDefault_defaultCommands (x : BehaviorManager D × W) :
    IsDefault (Machine.run (act d E) x (defaultCommands.map .command)).1 := by
  refine ⟨?_, rfl⟩
  funext g
  cases g <;> rfl

/-- The commands that reset go back to default. -/
theorem reset_eq (m : BehaviorManager D) {c : Command} (hc : IsReset c) :
    (m.command d c).1 = m.resetToDefault := by
  rcases hc with rfl | ⟨args, rfl⟩ <;> rfl

/-- **A reset restores the default behaviour** exactly when no execution quantity is armed. -/
theorem reset_iff (hs : List Action) (w : W) :
    ResetsAll d E (Machine.run (act d E) (new d, w) hs) ↔ armed d hs = false := by
  rw [← Bool.not_eq_true, ← armed_run d E hs w]
  generalize Machine.run (act d E) (new d, w) hs = x
  have hnew : IsDefault (new d) := ⟨rfl, rfl⟩
  constructor
  · intro h hne
    have hq := (h .reset (.inl rfl) [.executionQty]).1
    rw [hnew.answers] at hq
    have hhead : (executionQty x.1.resetToDefault).1 = -1 := (List.cons.inj hq).1
    unfold executionQty at hhead
    split at hhead
    · rename_i heq
      exact hne heq
    · exact hne hhead
  · intro hnot c hc qs
    have hdefault : IsDefault x.1.resetToDefault := ⟨rfl, not_not.mp hnot⟩
    rw [reset_eq d x.1 hc, hdefault.answers, hnew.answers,
      (isDefault_defaultCommands d E x).answers d E
        (Machine.run (act d E) x (defaultCommands.map .command)).2]
    exact ⟨rfl, rfl⟩

/-- A quantity that no order has taken yet survives a reset. -/
theorem not_reset_armed :
    ¬ ∀ (D W : Type) (d : Double D) (E : Env W) (w : W) (hs : List Action),
      ResetsAll d E (Machine.run (act d E) (new d, w) hs) := by
  intro h
  have hq := (h Unit Unit oneDouble quietEnv () [.command (.execute ["100"])] .reset (.inl rfl)
    [.executionQty]).1
  revert hq
  decide +kernel

end BehaviorManager

end Evtsim
