import Evtsim.AdminServer

/-!
# Lines on the console

What comes of the handlers of `adminserver.cpp` (`console_run`): the sessions behave as if whole lines
came in one at a time, and the lines of a session are the ones that its client has typed, in whatever
pieces they have arrived.
-/

namespace Evtsim

open Decimal Printf Text

namespace AdminServer

variable {σ : Type}

/-- The message that shows the commands. -/
def help (A : AdminServer σ) : List UInt8 := A.commandList.flatMap A.row ++ toBytes ".\n"

/-- What a command does, and its answer. -/
def command (A : AdminServer σ) (tokens : List String) (x : σ) : σ × List UInt8 :=
  match tokens with
  | ctx :: cmd :: args =>
    match AdminSession.find A ctx cmd with
    | some c => c.callback { ctx := c.ctx, cmd := c.cmd, args := args } x
    | none => (x, toBytes "unknown command\n" ++ toBytes ".\n")
  | _ => (x, toBytes "invalid input\n" ++ toBytes ".\n")

/-- What a line does, and its answer. -/
def respond (A : AdminServer σ) (tokens : List String) (x : σ) : σ × Option (List UInt8) :=
  if tokens.head? = some "login" then (x, some (toBytes "ok\n"))
  else if tokens = ["help"] ∨ tokens = ["?"] then (x, some A.help)
  else if tokens = ["quit"] then (x, none)
  else ((A.command tokens x).1, some (A.command tokens x).2)

end AdminServer

namespace AdminSession

variable {σ : Type} {A : AdminServer σ}

/-- A handler has answered and changed nothing else of what a later one reads; only the socket may have
been closed. -/
structure Answers (s t : AdminSession) (reply : Option (List UInt8)) : Prop where
  sent : t.sent = s.sent ++ reply.toList
  state : t.state = s.state
  input : t.input = s.input
  name : t.name = s.name
  fd : t.fd = s.fd

/-- A command is answered with the text of its callback. -/
theorem answers_handleCommand {s : AdminSession} (hs : s.state = .running) (tokens : List String) (x : σ) :
    (s.handleCommand A tokens x).2 = (A.command tokens x).1 ∧
      Answers s (s.handleCommand A tokens x).1 (some (A.command tokens x).2) := by
  unfold handleCommand AdminServer.command
  rw [if_neg (not_not.mpr hs)]
  rcases tokens with _ | ⟨ctx, _ | ⟨cmd, args⟩⟩
  · exact ⟨rfl, rfl, rfl, rfl, rfl, rfl⟩
  · exact ⟨rfl, rfl, rfl, rfl, rfl, rfl⟩
  · dsimp only
    cases find A ctx cmd with
    | none => exact ⟨rfl, rfl, rfl, rfl, rfl, rfl⟩
    | some c => exact ⟨rfl, rfl, rfl, rfl, rfl, rfl⟩

/-- A session that is running handles a line as `respond` says. -/
theorem answers_dispatch {s : AdminSession} (hs : s.state = .running) (tokens : List String) (x : σ) :
    (s.dispatch A tokens x).2 = (A.respond tokens x).1 ∧
      Answers s (s.dispatch A tokens x).1 (A.respond tokens x).2 := by
  unfold dispatch AdminServer.respond
  by_cases hlogin : tokens.head? = some "login"
  · rw [if_pos hlogin, if_pos hlogin]
    exact ⟨rfl, rfl, hs.symm, rfl, rfl, rfl⟩
  rw [if_neg hlogin, if_neg hlogin]
  by_cases hhelp : tokens = ["help"] ∨ tokens = ["?"]
  · rw [if_pos hhelp, if_pos hhelp, handleHelp, if_neg (not_not.mpr hs)]
    exact ⟨rfl, rfl, rfl, rfl, rfl, rfl⟩
  rw [if_neg hhelp, if_neg hhelp]
  by_cases hquit : tokens = ["quit"]
  · rw [if_pos hquit, if_pos hquit]
    exact ⟨rfl, (List.append_nil _).symm, rfl, rfl, rfl, rfl⟩
  rw [if_neg hquit, if_neg hquit]
  exact answers_handleCommand hs tokens x

/-- A session starts running and with the commands on its client's screen. -/
theorem start_running (A : AdminServer σ) (peer : String) (fd : ℤ) :
    (start A peer fd).state = .running ∧ (start A peer fd).sent = [A.help] ∧
      (start A peer fd).input = [] :=
  ⟨rfl, rfl, rfl⟩

end AdminSession

namespace Console

variable {σ ε : Type}

/-- What happens to a console that lines come in for one at a time. -/
inductive Act (ε : Type)
  | line (i : ℕ) (line : List UInt8)
  | other (e : ε)

/-- The state that the callbacks act on, and the messages that each session has been sent. -/
structure Transcript (σ : Type) where
  market : σ
  sent : ℕ → List (List UInt8)

variable (A : AdminServer σ) (f : σ → ε → σ)

/-- Every session starts with the commands on its client's screen. -/
def Transcript.new (x : σ) : Transcript σ := { market := x, sent := fun _ => [A.help] }

def Transcript.step (y : Transcript σ) : Act ε → Transcript σ
  | .line i line =>
    let r := A.respond (AdminSession.tokens line) y.market
    { market := r.1, sent := Function.update y.sent i (y.sent i ++ r.2.toList) }
  | .other e => { y with market := f y.market e }

/-- What is in the buffer of session `i`: nothing before it has been accepted. -/
def inputOf (x : Console σ) (i : ℕ) : List UInt8 := (x.sessions[i]?.map AdminSession.input).getD []

def sentOf (x : Console σ) (i : ℕ) : List (List UInt8) :=
  (x.sessions[i]?.map AdminSession.sent).getD [A.help]

/-- What a console has come to, line by line. -/
def transcript (x : Console σ) : Transcript σ := { market := x.market, sent := x.sentOf A }

/-- The line that a handler takes, or what else it is. -/
def act (x : Console σ) : Event ε → List (Act ε)
  | .line i => ((nextLine 10 (x.inputOf i)).map fun r => Act.line i r.1).toList
  | .other e => [.other e]
  | _ => []

/-- The lines of a run, in the order in which they are taken, and what else happens. -/
def acts (x : Console σ) : List (Event ε) → List (Act ε)
  | [] => []
  | e :: es => x.act e ++ acts (step A f x e) es

/-- The lines among them that are of session `i`. -/
def linesOf (i : ℕ) (as : List (Act ε)) : List (List UInt8) :=
  as.filterMap fun
    | .line j line => if j = i then some line else none
    | .other _ => none

/-- What the client of session `i` has typed. -/
def typed (i : ℕ) (es : List (Event ε)) : List UInt8 :=
  es.flatMap fun
    | .receive j bs => if j = i then bs else []
    | _ => []

variable {A f} {ok : σ → ε → Prop}

/-- Every session runs. -/
def Running (x : Console σ) : Prop :=
  ∀ (i : ℕ) (s : AdminSession), x.sessions[i]? = some s → s.state = .running

/-- The input of a session that is there. -/
theorem inputOf_eq {x : Console σ} {i : ℕ} {s : AdminSession} (h : x.sessions[i]? = some s) :
    x.inputOf i = s.input := by
  unfold inputOf
  rw [h]
  rfl

/-- What has been sent to a session that is there. -/
theorem sentOf_eq {x : Console σ} {i : ℕ} {s : AdminSession} (h : x.sessions[i]? = some s) :
    x.sentOf A i = s.sent := by
  unfold sentOf
  rw [h]
  rfl

section

variable {β : Type} {g : AdminSession → β} {ss : List AdminSession}

/-- What is read off a session that has just been accepted is what was read off before. -/
theorem getD_concat {t : AdminSession} {d : β} (ht : g t = d) (j : ℕ) :
    ((ss ++ [t])[j]?.map g).getD d = (ss[j]?.map g).getD d := by
  by_cases hj : j < ss.length
  · rw [List.getElem?_append_left hj]
  · rw [List.getElem?_append_right (Nat.le_of_not_lt hj), List.getElem?_eq_none (Nat.le_of_not_lt hj)]
    rcases j - ss.length with _ | k
    · exact ht
    · rfl

/-- A change that a view does not see leaves the view of every session alone. -/
theorem map_modify {h : AdminSession → AdminSession} (hg : ∀ a ∈ ss, g (h a) = g a) (i j : ℕ) :
    (ss.modify i h)[j]?.map g = ss[j]?.map g := by
  rw [List.getElem?_modify]
  rcases ha : ss[j]? with _ | a
  · rfl
  · show some (g (if i = j then h a else a)) = some (g a)
    split
    · rw [hg a (List.mem_of_getElem? ha)]
    · rfl

/-- A change that a view does not see leaves the view of all sessions alone. -/
theorem map_modify_eq {h : AdminSession → AdminSession} (hg : ∀ a ∈ ss, g (h a) = g a) (i : ℕ) :
    (ss.modify i h).map g = ss.map g := by
  refine List.ext_getElem? fun j => ?_
  rw [List.getElem?_map, List.getElem?_map, map_modify hg]

end

/-- The handler of a line takes the first one of the buffer, and the session answers it. -/
theorem handleRead_spec {s : AdminSession} (hs : s.state = .running) (hline : 10 ∈ s.input) (x : σ) :
    ∃ line rest, nextLine 10 s.input = some (line, rest) ∧
      (s.handleRead A x).2 = (A.respond (AdminSession.tokens line) x).1 ∧
      (s.handleRead A x).1.sent = s.sent ++ (A.respond (AdminSession.tokens line) x).2.toList ∧
      (s.handleRead A x).1.input = rest ∧ (s.handleRead A x).1.state = .running := by
  obtain ⟨⟨line, rest⟩, hnext⟩ := Option.isSome_iff_exists.mp (nextLine_isSome.mpr hline)
  refine ⟨line, rest, hnext, ?_⟩
  unfold AdminSession.handleRead
  rw [hnext]
  obtain ⟨hx, hsent, hstate, hinput, -, -⟩ := AdminSession.answers_dispatch (A := A)
    (s := s.printLine line rest) hs (AdminSession.tokens line) x
  exact ⟨hx, hsent, hinput, hstate.trans hs⟩

/-- Sessions run from their start on. -/
theorem running_step {x : Console σ} {e : Event ε} (hx : x.Running) (he : x.Enabled ok e) :
    (step A f x e).Running := by
  intro j t ht
  cases e with
  | accept peer =>
    rcases peer with _ | ⟨peer, fd⟩
    · exact hx j t ht
    · rcases List.mem_append.mp (List.mem_of_getElem? ht) with hold | hnew
      · obtain ⟨k, hk⟩ := List.getElem?_of_mem hold
        exact hx k t hk
      · rw [List.mem_singleton.mp hnew]
        exact (AdminSession.start_running A peer fd).1
  | receive i bs =>
    have hstate : (x.sessions.modify i fun s => s.receive bs)[j]?.map AdminSession.state =
        x.sessions[j]?.map AdminSession.state :=
      map_modify (h := fun s => s.receive bs) (fun _ _ => rfl) i j
    obtain ⟨s, hs, hst⟩ := Option.map_eq_some_iff.mp
      (hstate.symm.trans (congrArg (Option.map AdminSession.state) ht))
    exact hst.symm.trans (hx j s hs)
  | fail i message =>
    have hstate : (x.sessions.modify i fun s => s.handleError message)[j]?.map AdminSession.state =
        x.sessions[j]?.map AdminSession.state :=
      map_modify (h := fun s => s.handleError message) (fun _ _ => rfl) i j
    obtain ⟨s, hs, hst⟩ := Option.map_eq_some_iff.mp
      (hstate.symm.trans (congrArg (Option.map AdminSession.state) ht))
    exact hst.symm.trans (hx j s hs)
  | line i =>
    obtain ⟨s, hs, -, hline⟩ := he.2.2
    obtain ⟨-, -, -, -, -, -, hstate⟩ := handleRead_spec (A := A) (hx i s hs) (of_decide_eq_true hline)
      x.market
    have hsessions : (step A f x (.line i)).sessions = x.sessions.set i (s.handleRead A x.market).1 := by
      simp only [step, hs]
    rw [hsessions] at ht
    rcases List.mem_or_eq_of_mem_set (List.mem_of_getElem? ht) with hold | rfl
    · obtain ⟨k, hk⟩ := List.getElem?_of_mem hold
      exact hx k t hk
    · exact hstate
  | other e => exact hx j t ht

/-- The handler of a line changes its own session and the market. -/
theorem step_line {x : Console σ} {i : ℕ} {s : AdminSession} (hs : x.sessions[i]? = some s) :
    step A f x (.line i) = { x with
      sessions := x.sessions.set i (s.handleRead A x.market).1, market := (s.handleRead A x.market).2 } := by
  simp only [step, hs]

/-- The handler of a line acts on the line that it takes. -/
theorem act_line {x : Console σ} {i : ℕ} {s : AdminSession} {line rest : List UInt8}
    (hs : x.sessions[i]? = some s) (hnext : nextLine 10 s.input = some (line, rest)) :
    x.act (.line i : Event ε) = [.line i line] := by
  show ((nextLine 10 (x.inputOf i)).map fun r => Act.line i r.1).toList = _
  rw [inputOf_eq hs, hnext]
  rfl

/-- A handler does to the transcript what its line does. -/
theorem transcript_step {x : Console σ} {e : Event ε} (hx : x.Running) (he : x.Enabled ok e) :
    Machine.run (Transcript.step A f) (x.transcript A) (x.act e) = (step A f x e).transcript A := by
  cases e with
  | accept peer =>
    rcases peer with _ | ⟨peer, fd⟩
    · rfl
    · have hsent : ∀ j, (step A f x (.accept (some (peer, fd)))).sentOf A j = x.sentOf A j :=
        getD_concat (AdminSession.start_running A peer fd).2.1
      exact congrArg (Transcript.mk x.market) (funext fun j => (hsent j).symm)
  | receive i bs =>
    refine congrArg (Transcript.mk x.market) (funext fun j => congrArg (Option.getD · _) ?_)
    exact (map_modify (g := AdminSession.sent) (h := fun s => s.receive bs)
      (fun _ _ => rfl) i j).symm
  | fail i message =>
    refine congrArg (Transcript.mk x.market) (funext fun j => congrArg (Option.getD · _) ?_)
    exact (map_modify (g := AdminSession.sent) (h := fun s => s.handleError message)
      (fun _ _ => rfl) i j).symm
  | other e => rfl
  | line i =>
    obtain ⟨s, hs, -, hline⟩ := he.2.2
    obtain ⟨line, rest, hnext, hmarket, hsent, -, -⟩ := handleRead_spec (A := A) (hx i s hs)
      (of_decide_eq_true hline) x.market
    rw [act_line hs hnext, step_line hs, Machine.run_cons, Machine.run_nil]
    refine (congrArg₂ Transcript.mk hmarket (funext fun j => ?_)).symm
    show sentOf A _ j = Function.update (x.sentOf A) i
      (x.sentOf A i ++ (A.respond (AdminSession.tokens line) x.market).2.toList) j
    have hi : i < x.sessions.length := (List.getElem?_eq_some_iff.mp hs).1
    by_cases hj : i = j
    · subst hj
      rw [Function.update_self, sentOf_eq hs, ← hsent]
      exact sentOf_eq (List.getElem?_set_self hi)
    · rw [Function.update_of_ne (Ne.symm hj)]
      unfold sentOf
      rw [List.getElem?_set_ne hj]

/-- What has been typed is what has been taken and what is in the buffer. -/
theorem input_step {x : Console σ} {e : Event ε} (hx : x.Running) (he : x.Enabled ok e) (j : ℕ) :
    unlines 10 (linesOf j (x.act e)) ++ (step A f x e).inputOf j = x.inputOf j ++ typed j [e] ∧
      ∀ l ∈ linesOf j (x.act e), 10 ∉ l := by
  have hnone : ∀ l ∈ linesOf j ([] : List (Act ε)), 10 ∉ l := List.forall_mem_nil _
  cases e with
  | accept peer =>
    refine ⟨?_, hnone⟩
    rw [show typed j [(.accept peer : Event ε)] = [] from rfl, List.append_nil]
    rcases peer with _ | ⟨peer, fd⟩
    · rfl
    · exact getD_concat (AdminSession.start_running A peer fd).2.2 j
  | fail i message =>
    refine ⟨?_, hnone⟩
    rw [show typed j [(.fail i message : Event ε)] = [] from rfl, List.append_nil]
    exact congrArg (Option.getD · []) (map_modify (g := AdminSession.input)
      (h := fun s => s.handleError message) (fun _ _ => rfl) i j)
  | other e =>
    refine ⟨?_, hnone⟩
    rw [show typed j [(.other e : Event ε)] = [] from rfl, List.append_nil]
    rfl
  | receive i bs =>
    refine ⟨?_, hnone⟩
    obtain ⟨s, hs, -, -⟩ := he.2.2
    have htyped : typed j [(.receive i bs : Event ε)] = if i = j then bs else [] := List.append_nil _
    rw [htyped]
    show (((x.sessions.modify i fun s => s.receive bs)[j]?).map
      AdminSession.input).getD [] = _
    rw [List.getElem?_modify]
    -- what arrives waits behind what waited
    by_cases hj : i = j
    · subst hj
      rw [inputOf_eq hs, if_pos rfl, hs]
      simp [AdminSession.receive]
    · rw [if_neg hj, List.append_nil]
      unfold inputOf
      simp only [if_neg hj]
      cases x.sessions[j]? <;> rfl
  | line i =>
    obtain ⟨s, hs, -, hline⟩ := he.2.2
    obtain ⟨line, rest, hnext, -, -, hrest, -⟩ := handleRead_spec (A := A) (hx i s hs)
      (of_decide_eq_true hline) x.market
    obtain ⟨hinput, hbare⟩ := nextLine_eq_some hnext
    have hi : i < x.sessions.length := (List.getElem?_eq_some_iff.mp hs).1
    rw [act_line hs hnext, step_line hs, show typed j [(.line i : Event ε)] = [] from rfl, List.append_nil]
    by_cases hj : i = j
    · -- the line taken was at the front of the input
      subst hj
      have hlines : linesOf i [Act.line i line (ε := ε)] = [line] := by simp [linesOf]
      rw [hlines]
      refine ⟨?_, fun l hl => List.mem_singleton.mp hl ▸ hbare⟩
      rw [inputOf_eq hs, inputOf_eq (List.getElem?_set_self hi), hrest, hinput, unlines,
        List.flatMap_singleton, List.append_assoc]
      rfl
    · -- the line was typed into another session
      have hlines : linesOf j [Act.line i line (ε := ε)] = [] := by simp [linesOf, hj]
      rw [hlines]
      refine ⟨?_, hnone⟩
      unfold inputOf
      rw [List.getElem?_set_ne hj]
      rfl

/-- A run of handlers is seen in the transcript as its acts. -/
theorem transcript_run {x : Console σ} {es : List (Event ε)} (hx : x.Running)
    (hes : Machine.Along (step A f) (Enabled ok) x es) :
    Machine.run (Transcript.step A f) (x.transcript A) (acts A f x es) =
      (Machine.run (step A f) x es).transcript A := by
  induction es generalizing x with
  | nil => rfl
  | cons e es ih =>
    rw [acts, Machine.run_append, transcript_step hx hes.1, ih (running_step hx hes.1) hes.2,
      Machine.run_cons]

/-- What is typed in a run is what is typed in its first event and behind it. -/
theorem typed_cons (j : ℕ) (e : Event ε) (es : List (Event ε)) :
    typed j (e :: es) = typed j [e] ++ typed j es := by
  unfold typed
  rw [List.flatMap_cons, List.flatMap_singleton]

/-- The lines taken and what is still waiting are what has been typed. -/
theorem input_run {x : Console σ} {es : List (Event ε)} (hx : x.Running)
    (hes : Machine.Along (step A f) (Enabled ok) x es) (j : ℕ) :
    unlines 10 (linesOf j (acts A f x es)) ++ (Machine.run (step A f) x es).inputOf j =
        x.inputOf j ++ typed j es ∧
      ∀ l ∈ linesOf j (acts A f x es), 10 ∉ l := by
  induction es generalizing x with
  | nil => exact ⟨(List.append_nil _).symm, List.forall_mem_nil _⟩
  | cons e es ih =>
    obtain ⟨hstep, hbare⟩ := input_step (A := A) (f := f) hx hes.1 j
    obtain ⟨hrun, hbares⟩ := ih (running_step hx hes.1) hes.2
    have hlines : linesOf j (acts A f x (e :: es)) =
        linesOf j (x.act e) ++ linesOf j (acts A f (step A f x e) es) := List.filterMap_append ..
    rw [hlines]
    refine ⟨?_, List.forall_mem_append.mpr ⟨hbare, hbares⟩⟩
    calc unlines 10 (linesOf j (x.act e) ++ linesOf j (acts A f (step A f x e) es)) ++
          (Machine.run (step A f) x (e :: es)).inputOf j
      _ = unlines 10 (linesOf j (x.act e)) ++ (unlines 10 (linesOf j (acts A f (step A f x e) es)) ++
            (Machine.run (step A f) (step A f x e) es).inputOf j) := by
          rw [unlines, List.flatMap_append, List.append_assoc]
          rfl
      _ = unlines 10 (linesOf j (x.act e)) ++ (step A f x e).inputOf j ++ typed j es := by
          rw [hrun, List.append_assoc]
      _ = x.inputOf j ++ typed j [e] ++ typed j es := by rw [hstep]
      _ = x.inputOf j ++ typed j (e :: es) := by
          rw [List.append_assoc, ← typed_cons]

/-- **The console.** In every run the sessions behave as if they were handed whole lines one at a time:
what the callbacks have done and what each client has been sent is what the lines of `acts` make of it,
and the lines of a session are the first of those that its client has typed, all but those still in its
buffer. -/
theorem console_run {m : σ} {es : List (Event ε)} (hes : Machine.Along (step A f) (Enabled ok) (new m) es) :
    let x := Machine.run (step A f) (new m) es
    let as := acts A f (new m) es
    x.transcript A = Machine.run (Transcript.step A f) (Transcript.new A m) as ∧
      ∀ i, lines 10 (typed i es) = linesOf i as ++ lines 10 (x.inputOf i) := by
  have hrunning : (new m : Console σ).Running := fun _ _ h => nomatch h
  refine ⟨(transcript_run hrunning hes).symm, fun i => ?_⟩
  obtain ⟨hinput, hbare⟩ := input_run hrunning hes i
  rw [← lines_unlines_append hbare, hinput]
  rfl

/-- A client who asks for help in two pieces, of a server without commands. -/
def helped : List (Event Empty) :=
  [.accept (some ("127.0.0.1:4000", 8)), .receive 0 [104, 101, 108], .receive 0 [112, 13, 10], .line 0]

/-- The handlers of the short run are enabled. -/
theorem enabled_helped : Machine.Along (step AdminServer.new fun x (_ : Empty) => x)
    (Enabled fun _ _ => True) (new ()) helped := by
  decide +kernel

/-- The transcript of the short run. -/
theorem console_run_helped :
    let x := Machine.run (step AdminServer.new fun x (_ : Empty) => x) (new ()) helped
    let as := acts AdminServer.new (fun x _ => x) (new ()) helped
    x.transcript AdminServer.new = Machine.run (Transcript.step AdminServer.new fun x _ => x)
        (Transcript.new AdminServer.new ()) as ∧
      ∀ i, lines 10 (typed i helped) = linesOf i as ++ lines 10 (x.inputOf i) :=
  console_run enabled_helped

end Console

end Evtsim
