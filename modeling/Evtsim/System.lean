import Evtsim.Console
import Evtsim.Status

/-!
# The program and its console

The commands that `BehaviorManager` registers, and the console run together with the two servers
(`evtsim_main.cpp`, `behavior_manager.cpp`). `refines_program` follows the program through such a run:
it is a run of `Program` over the commands that have been typed, in the order in which their lines were
taken, and `typed_line` says which lines these are.
-/

namespace Evtsim

open Printf Text

namespace Program

variable {D W : Type} (d : Double D) (E : Env W)

/-- An admin command that concerns the manager itself. -/
def manage (x : Program D W) (c : BehaviorManager.Command) : Program D W × List UInt8 :=
  let r := x.env.1.command d c
  ({ x with env := (r.1, x.env.2) }, toBytes r.2)

/-- The registrations in `BehaviorManager::BehaviorManager`. -/
def registrations : Except String (AdminServer (Program D W)) := do
  let A ← AdminServer.new.registerAdmin "bm set" "[action] [params...]" ""
    fun c x => manage d x (.set c.args)
  let A ← A.registerAdmin "bm reset" "" "" fun _ x => manage d x .reset
  let A ← A.registerAdmin "bm execute" "[qty]" "" fun c x => manage d x (.execute c.args)
  let A ← A.registerAdmin "bm status" "" "" fun _ x => (x, (registered d E).displayStatus x)
  A.registerAdmin "bm cancel_all" "" "" fun _ x => (registered d E).cancelAll x

/-- What they come to. -/
def admin : AdminServer (Program D W) :=
  { commandList :=
      [{ ctx := "bm", cmd := "set", args := "[action] [params...]", help := ""
         callback := fun c x => manage d x (.set c.args) },
        { ctx := "bm", cmd := "reset", args := "", help := "", callback := fun _ x => manage d x .reset },
        { ctx := "bm", cmd := "execute", args := "[qty]", help := ""
          callback := fun c x => manage d x (.execute c.args) },
        { ctx := "bm", cmd := "status", args := "", help := ""
          callback := fun _ x => (x, (registered d E).displayStatus x) },
        { ctx := "bm", cmd := "cancel_all", args := "", help := ""
          callback := fun _ x => (registered d E).cancelAll x }]
    limits := [4, 12, 22, 2] }

/-- The registrations of `main` succeed and leave the commands listed. -/
theorem registrations_eq : registrations d E = .ok (admin d E) := by
  have hbm : ' ' ∉ "bm".toList := by decide
  have hset : "bm set" = "bm" ++ " " ++ "set" := by decide
  have hreset : "bm reset" = "bm" ++ " " ++ "reset" := by decide
  have hexecute : "bm execute" = "bm" ++ " " ++ "execute" := by decide
  have hstatus : "bm status" = "bm" ++ " " ++ "status" := by decide
  have hcancel : "bm cancel_all" = "bm" ++ " " ++ "cancel_all" := by decide
  unfold registrations
  simp only [hset, hreset, hexecute, hstatus, hcancel, AdminServer.registerAdmin_eq _ _ hbm]
  refine congrArg Except.ok (congrArg (AdminServer.mk _) ?_)
  simp only [AdminServer.recalculateLimits, AdminServer.new, length_toBytes, List.nil_append,
    List.cons_append, List.foldl_cons, List.foldl_nil]
  decide

/-- The handler that a command is. -/
def commandOf : List String → Option Event
  | ctx :: cmd :: args =>
    if ctx = "bm" then
      if cmd = "set" then some (.command (.set args))
      else if cmd = "reset" then some (.command .reset)
      else if cmd = "execute" then some (.command (.execute args))
      else if cmd = "cancel_all" then some .cancelAll
      else none
    else none
  | _ => none

/-- The first two tokens name the command; only two commands look at the rest. -/
theorem commandOf_eq_some {ts : List String} {e : Event} :
    commandOf ts = some e ↔ ∃ args,
      ts = "bm" :: "set" :: args ∧ e = .command (.set args) ∨
      ts = "bm" :: "reset" :: args ∧ e = .command .reset ∨
      ts = "bm" :: "execute" :: args ∧ e = .command (.execute args) ∨
      ts = "bm" :: "cancel_all" :: args ∧ e = .cancelAll := by
  constructor
  · intro h
    rcases ts with _ | ⟨ctx, _ | ⟨cmd, args⟩⟩
    · exact nomatch h
    · exact nomatch h
    refine ⟨args, ?_⟩
    rw [commandOf] at h
    split at h
    case isFalse => exact nomatch h
    case isTrue hctx =>
      subst hctx
      split at h
      case isTrue hset => exact .inl ⟨hset ▸ rfl, (Option.some.inj h).symm⟩
      split at h
      case isTrue hreset => exact .inr (.inl ⟨hreset ▸ rfl, (Option.some.inj h).symm⟩)
      split at h
      case isTrue hexecute =>
        exact .inr (.inr (.inl ⟨hexecute ▸ rfl, (Option.some.inj h).symm⟩))
      split at h
      case isTrue hcancel => exact .inr (.inr (.inr ⟨hcancel ▸ rfl, (Option.some.inj h).symm⟩))
      exact nomatch h
  · rintro ⟨args, ⟨rfl, rfl⟩ | ⟨rfl, rfl⟩ | ⟨rfl, rfl⟩ | ⟨rfl, rfl⟩⟩ <;> rfl

variable {d E}

/-- The callback of a command is its handler. -/
theorem command_fst (ctx cmd : String) (args : List String) (x : Program D W) :
    ((admin d E).command (ctx :: cmd :: args) x).1 =
      Machine.run (step d E) x (commandOf (ctx :: cmd :: args)).toList := by
  have hfind : AdminSession.find (admin d E) ctx cmd =
      (admin d E).commandList.find? fun c => c.ctx = ctx && c.cmd = cmd := rfl
  by_cases hctx : ctx = "bm"
  case neg =>
    have hnone : AdminSession.find (admin d E) ctx cmd = none := by
      rw [hfind, List.find?_eq_none]
      simp [admin, Ne.symm hctx]
    rw [AdminServer.command, hnone, commandOf, if_neg hctx]
    rfl
  subst hctx
  by_cases hset : cmd = "set"
  · subst hset
    rfl
  by_cases hreset : cmd = "reset"
  · subst hreset
    rfl
  by_cases hexecute : cmd = "execute"
  · subst hexecute
    rfl
  by_cases hstatus : cmd = "status"
  · subst hstatus
    rfl
  by_cases hcancel : cmd = "cancel_all"
  · subst hcancel
    exact congrArg Prod.fst (registered_cancelAll x)
  have hnone : AdminSession.find (admin d E) "bm" cmd = none := by
    rw [hfind, List.find?_eq_none]
    simp [admin, Ne.symm hset, Ne.symm hreset, Ne.symm hexecute, Ne.symm hstatus, Ne.symm hcancel]
  rw [AdminServer.command, hnone, commandOf, if_pos rfl, if_neg hset, if_neg hreset,
    if_neg hexecute, if_neg hcancel]
  rfl

/-- What a line does to the program. -/
theorem respond_fst (tokens : List String) (x : Program D W) :
    ((admin d E).respond tokens x).1 = Machine.run (step d E) x (commandOf tokens).toList := by
  have hshort : tokens.length < 2 → commandOf tokens = none ∧ ((admin d E).command tokens x).1 = x := by
    intro h
    rcases tokens with _ | ⟨a, _ | ⟨b, args⟩⟩
    · exact ⟨rfl, rfl⟩
    · exact ⟨rfl, rfl⟩
    · exact absurd h (by simp)
  unfold AdminServer.respond
  by_cases hlogin : tokens.head? = some "login"
  · have hnone : commandOf tokens = none := by
      rcases tokens with _ | ⟨a, rest⟩
      · rfl
      · obtain rfl := Option.some.inj hlogin
        rcases rest with _ | ⟨cmd, args⟩
        · rfl
        · rw [commandOf, if_neg (by decide)]
    rw [if_pos hlogin, hnone]
    rfl
  rw [if_neg hlogin]
  by_cases hhelp : tokens = ["help"] ∨ tokens = ["?"]
  · rw [if_pos hhelp, (hshort (by rcases hhelp with h | h <;> rw [h] <;> decide)).1]
    rfl
  rw [if_neg hhelp]
  by_cases hquit : tokens = ["quit"]
  · rw [if_pos hquit, (hshort (by rw [hquit]; decide)).1]
    rfl
  rw [if_neg hquit]
  rcases tokens with _ | ⟨a, _ | ⟨b, args⟩⟩
  · rfl
  · rfl
  · exact command_fst a b args x

/-- A line has the tokens that it spells. -/
theorem tokens_eq_iff {line : List UInt8} {ws : List (List UInt8)} :
    AdminSession.tokens line = ws.map ofBytes ↔ Spells isBlank ws (trim isSpace line) := by
  unfold AdminSession.tokens
  rw [(List.map_injective_iff.mpr ofBytes_injective).eq_iff, words_eq_iff]

/-- A line starts with given tokens exactly if it spells them. -/
theorem exists_tokens_iff (line : List UInt8) (pre : List (List UInt8)) :
    (∃ args, AdminSession.tokens line = pre.map ofBytes ++ args) ↔
      ∃ args, Spells isBlank (pre ++ args) (trim isSpace line) := by
  constructor
  · rintro ⟨args, h⟩
    obtain ⟨ws, as, hws, hpre, -⟩ := List.map_eq_append_iff.mp h
    refine ⟨as, words_eq_iff.mp ?_⟩
    rw [hws, List.map_injective_iff.mpr ofBytes_injective hpre]
  · rintro ⟨args, h⟩
    exact ⟨args.map ofBytes, (tokens_eq_iff.mpr h).trans (List.map_append ..)⟩

/-- **Commands.** What a typed line does, whatever blanks it is typed with: `bm set` and `bm execute`
go to the manager with the words behind them, `bm reset` and `bm cancel_all` have no use for them, and
no other line changes anything; every line is answered but `quit`. -/
theorem typed_line (line : List UInt8) (x : Program D W) :
    let r := (admin d E).respond (AdminSession.tokens line) x
    let e := commandOf (AdminSession.tokens line)
    let spelled := fun ws : List (List UInt8) => Spells isBlank ws (trim isSpace line)
    r.1 = Machine.run (step d E) x e.toList ∧
      (∀ args, e = some (.command (.set (args.map ofBytes))) ↔
        spelled (toBytes "bm" :: toBytes "set" :: args)) ∧
      (∀ args, e = some (.command (.execute (args.map ofBytes))) ↔
        spelled (toBytes "bm" :: toBytes "execute" :: args)) ∧
      (e = some (.command .reset) ↔ ∃ args, spelled (toBytes "bm" :: toBytes "reset" :: args)) ∧
      (e = some .cancelAll ↔ ∃ args, spelled (toBytes "bm" :: toBytes "cancel_all" :: args)) ∧
      (r.2 = none ↔ spelled [toBytes "quit"]) := by
  have hbm : ofBytes (toBytes "bm") = "bm" := by decide
  have hset : ofBytes (toBytes "set") = "set" := by decide
  have hreset : ofBytes (toBytes "reset") = "reset" := by decide
  have hexecute : ofBytes (toBytes "execute") = "execute" := by decide
  have hcancel : ofBytes (toBytes "cancel_all") = "cancel_all" := by decide
  have hquit : ofBytes (toBytes "quit") = "quit" := by decide
  refine ⟨respond_fst _ x, fun args => ?_, fun args => ?_, ?_, ?_, ?_⟩
  · show commandOf _ = _ ↔ Spells isBlank _ _
    rw [← tokens_eq_iff, List.map_cons, List.map_cons, hbm, hset, commandOf_eq_some]
    simp
  · show commandOf _ = _ ↔ Spells isBlank _ _
    rw [← tokens_eq_iff, List.map_cons, List.map_cons, hbm, hexecute, commandOf_eq_some]
    simp
  · have hexists := exists_tokens_iff line [toBytes "bm", toBytes "reset"]
    rw [List.map_cons, List.map_singleton, hbm, hreset] at hexists
    exact (commandOf_eq_some.trans (by simp)).trans hexists
  · have hexists := exists_tokens_iff line [toBytes "bm", toBytes "cancel_all"]
    rw [List.map_cons, List.map_singleton, hbm, hcancel] at hexists
    exact (commandOf_eq_some.trans (by simp)).trans hexists
  · show ((admin d E).respond _ x).2 = none ↔ Spells isBlank _ _
    rw [← tokens_eq_iff, List.map_singleton, hquit]
    unfold AdminServer.respond
    by_cases hlogin : (AdminSession.tokens line).head? = some "login"
    · rw [if_pos hlogin]
      refine iff_of_false (fun h => nomatch h) fun h => ?_
      rw [h] at hlogin
      exact absurd hlogin (by decide)
    rw [if_neg hlogin]
    by_cases hhelp : AdminSession.tokens line = ["help"] ∨ AdminSession.tokens line = ["?"]
    · rw [if_pos hhelp]
      refine iff_of_false (fun h => nomatch h) fun h => ?_
      rw [h] at hhelp
      exact absurd hhelp (by decide)
    rw [if_neg hhelp]
    split
    case isTrue hquit => exact iff_of_true rfl hquit
    case isFalse hquit => exact iff_of_false (fun h => nomatch h) hquit

/-! ## Runs -/

/-- A handler of one of the two servers can run, and returns. -/
def OnServers (x : Program D W) : Event → Prop
  | .ouch c => Completes x (.ouch c)
  | .boe c => Completes x (.boe c)
  | .command _ => False
  | .cancelAll => False

instance (x : Program D W) : ∀ e, Decidable (OnServers x e)
  | .ouch c => inferInstanceAs (Decidable (Completes x (.ouch c)))
  | .boe c => inferInstanceAs (Decidable (Completes x (.boe c)))
  | .command _ => isFalse id
  | .cancelAll => isFalse id

/-- A handler of a server returns. -/
theorem OnServers.completes {x : Program D W} {e : Event} (h : OnServers x e) : Completes x e := by
  cases e with
  | ouch c => exact h
  | boe c => exact h
  | command c => exact h.elim
  | cancelAll => exact h.elim

/-- What a line or a handler does to the program. -/
def events : Console.Act Event → List Event
  | .line _ line => (commandOf (AdminSession.tokens line)).toList
  | .other e => [e]

/-- The transcript carries the program along. -/
theorem market_run (y : Console.Transcript (Program D W)) (as : List (Console.Act Event)) :
    (Machine.run (Console.Transcript.step (admin d E) (step d E)) y as).market =
      Machine.run (step d E) y.market (as.flatMap events) := by
  induction as generalizing y with
  | nil => rfl
  | cons a as ih =>
    rw [Machine.run_cons, ih, List.flatMap_cons, Machine.run_append]
    refine congrArg (Machine.run (step d E) · (as.flatMap events)) ?_
    cases a with
    | line i line => exact respond_fst _ y.market
    | other e => rfl

/-- A sound program takes any command. -/
theorem completes_commandOf {x : Program D W} (hx : Sound x) (tokens : List String) :
    Machine.Along (step d E) Completes x (commandOf tokens).toList := by
  rcases h : commandOf tokens with _ | e
  · trivial
  · refine ⟨?_, trivial⟩
    obtain ⟨args, ⟨-, rfl⟩ | ⟨-, rfl⟩ | ⟨-, rfl⟩ | ⟨-, rfl⟩⟩ := commandOf_eq_some.mp h <;>
      exact ⟨⟨hx.ouch.ended, hx.boe.ended, trivial⟩, trivial⟩

/-- Every event that a console handler brings to the program returns. -/
theorem completes_events {x : Program D W} (hx : Sound x) {c : Console (Program D W)}
    (hc : c.market = x) {e : Console.Event Event} (he : c.Enabled OnServers e) :
    Machine.Along (step d E) Completes x ((c.act e).flatMap events) := by
  cases e with
  | accept peer => trivial
  | receive i bs => trivial
  | fail i message => trivial
  | other e => exact ⟨hc ▸ OnServers.completes he.2.2, trivial⟩
  | line i =>
    show Machine.Along (step d E) Completes x
      ((((nextLine 10 (c.inputOf i)).map fun r => Console.Act.line i r.1).toList).flatMap events)
    rcases nextLine 10 (c.inputOf i) with _ | ⟨line, rest⟩
    · trivial
    · show Machine.Along (step d E) Completes x ((commandOf (AdminSession.tokens line)).toList ++ [])
      rw [List.append_nil]
      exact completes_commandOf hx _

/-- Every event that a console run brings to the program returns. -/
theorem completes_acts {c : Console (Program D W)} {es : List (Console.Event Event)} (hx : Sound c.market)
    (hr : c.Running)
    (hes : Machine.Along (Console.step (admin d E) (step d E)) (Console.Enabled OnServers) c es) :
    Machine.Along (step d E) Completes c.market
      ((Console.acts (admin d E) (step d E) c es).flatMap events) := by
  induction es generalizing c with
  | nil => trivial
  | cons e es ih =>
    have hmarket : (Console.step (admin d E) (step d E) c e).market =
        Machine.run (step d E) c.market ((c.act e).flatMap events) := by
      have htranscript := Console.transcript_step (A := admin d E) (f := step d E) hr hes.1
      have h := congrArg Console.Transcript.market htranscript
      rw [market_run] at h
      exact h.symm
    have hfirst := completes_events (d := d) (E := E) hx rfl hes.1
    have hsound : Sound (Console.step (admin d E) (step d E) c e).market := by
      rw [hmarket]
      exact Machine.run_of_along (fun _ _ h he => Sound.step h he) hx hfirst
    rw [Console.acts, List.flatMap_append, Machine.along_append, ← hmarket]
    exact ⟨hfirst, ih hsound (Console.running_step hr hes.1) hes.2⟩

/-- **Refinement.** Run together with its console the program is a run of `Program` over the commands
that have been typed, in the order in which their lines were taken, and the handlers of the servers
between them; every handler of that run can run when its turn comes, and returns. -/
theorem refines_program {w : W} {ouchStart boeStart : ℤ} {es : List (Console.Event Event)}
    (hes : Machine.Along (Console.step (admin d E) (step d E)) (Console.Enabled OnServers)
      (.new (init d E w ouchStart boeStart)) es) :
    let ps := (Console.acts (admin d E) (step d E) (.new (init d E w ouchStart boeStart)) es).flatMap events
    (Machine.run (Console.step (admin d E) (step d E)) (.new (init d E w ouchStart boeStart)) es).market =
        Machine.run (step d E) (init d E w ouchStart boeStart) ps ∧
      Machine.Along (step d E) Completes (init d E w ouchStart boeStart) ps := by
  have hrunning : (Console.new (init d E w ouchStart boeStart)).Running := fun _ _ h => nomatch h
  have htranscript := Console.transcript_run hrunning hes
  exact ⟨(congrArg Console.Transcript.market htranscript.symm).trans (market_run _ _),
    completes_acts (c := .new (init d E w ouchStart boeStart)) (sound_init w ouchStart boeStart) hrunning hes⟩

/-- A command that arrives in two pieces, with an OUCH client connecting between them. -/
def typedCommand : List (Console.Event Event) :=
  [.accept (some ("127.0.0.1:4000", 8)), .receive 0 [98, 109, 32, 114, 101],
    .other (.ouch (.accept false)), .receive 0 [115, 101, 116, 13, 10], .line 0]

/-- The typed run of console and servers. -/
theorem refines_program_typed :
    let x := init oneDouble quietEnv () 0 0
    let ps := (Console.acts (admin oneDouble quietEnv) (step oneDouble quietEnv) (.new x)
      typedCommand).flatMap events
    (Machine.run (Console.step (admin oneDouble quietEnv) (step oneDouble quietEnv)) (.new x)
          typedCommand).market = Machine.run (step oneDouble quietEnv) x ps ∧
      Machine.Along (step oneDouble quietEnv) Completes x ps :=
  refines_program (by decide +kernel)

end Program

end Evtsim
