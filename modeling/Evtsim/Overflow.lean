import Evtsim.Console

/-!
# Lines that are too long

`handle_read` prints the line that it has read into a `char[100]`. `overflow_iff` says which lines a
client must not type; every other text that a session prints fits.
-/

namespace Evtsim

open Decimal Printf Text

/-- `remote_endpoint` and `native_handle` of an IPv4 connection: a dotted address with a port, and an
`int`. -/
structure AdminSession.Short (s : AdminSession) : Prop where
  name : s.name.length ≤ 34
  fd : (printInt s.fd).length ≤ 10

namespace AdminSession

variable {σ : Type} {A : AdminServer σ} {s : AdminSession}

/-- The session of an IPv4 peer has a short name. -/
theorem short_start {peer : String} {fd : ℤ} (hpeer : peer.length ≤ 21) (h0 : 0 ≤ fd) (hfd : fd < 2 ^ 31) :
    (start A peer fd).Short := by
  constructor
  · show ("adminsession_" ++ peer).length ≤ 34
    rw [String.length_append]
    have hprefix : "adminsession_".length = 13 := rfl
    omega
  · show (printInt fd).length ≤ 10
    unfold printInt
    rw [if_neg (not_lt.mpr h0)]
    exact (length_print_le_iff (by decide)).mpr (by omega)

/-- How long a line a session can print. -/
theorem overflow_format (s : AdminSession) (text : List UInt8) :
    (s.format text).overflow =
      (s.overflow || decide (96 ≤ s.name.length + (printInt s.fd).length + text.length)) := by
  unfold format
  have hfd : (toBytes " fd=").length = 4 := rfl
  simp only [List.length_append, length_toBytes, hfd]
  refine congrArg (s.overflow || ·) (decide_eq_decide.mpr ?_)
  omega

/-- A short text behind a short name fits. -/
theorem overflow_format_of_short (hs : s.Short) {text : List UInt8} (ht : text.length ≤ 51) :
    (s.format text).overflow = s.overflow := by
  have hname := hs.name
  have hfd := hs.fd
  rw [overflow_format, decide_eq_false (by omega), Bool.or_false]

/-- A number of `k` bytes has at most three digits for each, a sign and one more. -/
theorem length_printInt_le {z : ℤ} {k : ℕ} (h : z.natAbs ≤ 256 ^ k) :
    (printInt z).length ≤ 3 * k + 2 := by
  have hdigits := digits_le h
  rw [← length_print] at hdigits
  unfold printInt
  split
  · rw [List.length_cons]
    omega
  · omega

/-- The log of a new state fits. -/
theorem overflow_setState (hs : s.Short) (state : AdminState) :
    (s.setState state).overflow = s.overflow :=
  overflow_format_of_short hs (by cases state <;> decide)

/-- The help is not formatted in the buffer. -/
theorem overflow_handleHelp (A : AdminServer σ) (s : AdminSession) :
    (s.handleHelp A).overflow = s.overflow := by
  unfold handleHelp
  split
  · rfl
  · rfl

/-- The log of a command fits. -/
theorem overflow_handleCommand (hs : s.Short) (tokens : List String) (x : σ) :
    (s.handleCommand A tokens x).1.overflow = s.overflow := by
  unfold handleCommand
  split
  · rfl
  · rcases tokens with _ | ⟨ctx, _ | ⟨cmd, args⟩⟩
    · rfl
    · rfl
    · dsimp only
      rcases find A ctx cmd with _ | c
      · rfl
      · refine overflow_format_of_short ⟨hs.name, hs.fd⟩ ?_
        have hlen := length_printInt_le (natAbs_toSigned_le (k := 4) (n :=
          (c.callback { ctx := c.ctx, cmd := c.cmd, args := args } x).2.length % 256 ^ 4)
          (Nat.mod_lt _ (by decide)))
        have hprefix : (toBytes " response len=").length = 14 := rfl
        rw [List.length_append, hprefix]
        omega

/-- Only the text of a line can be too long. -/
theorem overflow_dispatch (hs : s.Short) (tokens : List String) (x : σ) :
    (s.dispatch A tokens x).1.overflow = s.overflow := by
  unfold dispatch
  split
  · exact overflow_setState (s := s.send (toBytes "ok\n") true) ⟨hs.name, hs.fd⟩ .running
  split
  · exact overflow_handleHelp A s
  split
  · exact overflow_format_of_short hs (by decide)
  · exact overflow_handleCommand hs tokens x

/-- The log of a short error fits. -/
theorem overflow_handleError (hs : s.Short) {message : String} (hm : message.length ≤ 36) :
    (s.handleError message).overflow = s.overflow := by
  refine overflow_format_of_short hs ?_
  have hprefix : " disconnect ec=".length = 15 := rfl
  rw [length_toBytes, String.length_append]
  omega

/-- The log of a new session fits. -/
theorem overflow_start {peer : String} {fd : ℤ} (h : (start A peer fd).Short) :
    (start A peer fd).overflow = false := by
  have hshort : (new peer fd).Short := ⟨h.name, h.fd⟩
  rw [start, overflow_handleHelp, overflow_setState hshort]
  rfl

end AdminSession

namespace Console

variable {σ ε : Type} {A : AdminServer σ} {f : σ → ε → σ} {ok : σ → ε → Prop}

/-- A peer of an IPv4 connection, and an error with a text of a usual length. -/
def Plain : Event ε → Prop
  | .accept (some (peer, fd)) => peer.length ≤ 21 ∧ 0 ≤ fd ∧ fd < 2 ^ 31
  | .fail _ message => message.length ≤ 36
  | _ => True

/-- The handler takes a line that does not fit with the name of the session. -/
def TooLong (x : Console σ) : Event ε → Prop
  | .line i => ∃ s line rest, x.sessions[i]? = some s ∧ nextLine 10 s.input = some (line, rest) ∧
      89 ≤ s.name.length + (printInt s.fd).length + ((trim isSpace line).takeWhile (· ≠ 0)).length
  | _ => False

/-- No `sprintf` has written past its buffer. -/
def Defined (x : Console σ) : Prop := ∀ b ∈ x.sessions.map AdminSession.overflow, b = false

/-- Every session runs and has a short name. -/
structure Named (x : Console σ) : Prop where
  running : x.Running
  short : ∀ s ∈ x.sessions, s.Short

/-- The log of a line fits exactly if the line with the name does. -/
theorem overflow_handleRead {s : AdminSession} (hs : s.Short) {line rest : List UInt8}
    (hnext : nextLine 10 s.input = some (line, rest)) (x : σ) :
    (s.handleRead A x).1.overflow = (s.overflow || decide (89 ≤ s.name.length +
      (printInt s.fd).length + ((trim isSpace line).takeWhile (· ≠ 0)).length)) := by
  have hshort : (s.printLine line rest).Short := ⟨hs.name, hs.fd⟩
  have hprefix : (toBytes " input=").length = 7 := rfl
  unfold AdminSession.handleRead
  rw [hnext]
  show ((s.printLine line rest).dispatch A (AdminSession.tokens line) x).1.overflow = _
  rw [AdminSession.overflow_dispatch hshort, AdminSession.printLine, AdminSession.overflow_format,
    List.length_append, hprefix]
  refine congrArg (s.overflow || ·) (decide_eq_decide.mpr ?_)
  dsimp only
  omega

/-- A handler of a line leaves the name of its session alone. -/
theorem identity_handleRead {s : AdminSession} (hs : s.state = .running) (x : σ) :
    ((s.handleRead A x).1.name, (s.handleRead A x).1.fd) = (s.name, s.fd) := by
  unfold AdminSession.handleRead
  rcases nextLine 10 s.input with _ | ⟨line, rest⟩
  · rfl
  · obtain ⟨-, -, -, -, hname, hfd⟩ := AdminSession.answers_dispatch (A := A)
      (s := s.printLine line rest) hs (AdminSession.tokens line) x
    exact Prod.ext hname hfd

/-- Every handler leaves the sessions with short names. -/
theorem named_step {x : Console σ} {e : Event ε} (hx : x.Named) (he : x.Enabled ok e) (hp : Plain e) :
    (step A f x e).Named := by
  refine ⟨running_step hx.running he, ?_⟩
  -- a session is short by its name and handle, which only its start sets
  have hkept : ∀ ss : List AdminSession,
      ss.map (fun s => (s.name, s.fd)) = x.sessions.map (fun s => (s.name, s.fd)) →
      ∀ t ∈ ss, t.Short := by
    intro ss hss t ht
    have hmem : (t.name, t.fd) ∈ x.sessions.map fun s => (s.name, s.fd) :=
      hss ▸ List.mem_map_of_mem (f := fun s : AdminSession => (s.name, s.fd)) ht
    obtain ⟨s, hs, hst⟩ := List.mem_map.mp hmem
    obtain ⟨hname, hfd⟩ := Prod.mk.inj hst
    have hshort := hx.short s hs
    exact ⟨hname ▸ hshort.name, hfd ▸ hshort.fd⟩
  cases e with
  | accept peer =>
    rcases peer with _ | ⟨peer, fd⟩
    · exact hx.short
    · refine List.forall_mem_append.mpr ⟨hx.short, fun t ht => ?_⟩
      rw [List.mem_singleton.mp ht]
      exact AdminSession.short_start hp.1 hp.2.1 hp.2.2
  | receive i bs => exact hkept _ (map_modify_eq (h := fun s => s.receive bs) (fun _ _ => rfl) i)
  | fail i message =>
    exact hkept _ (map_modify_eq (h := fun s => s.handleError message) (fun _ _ => rfl) i)
  | other e => exact hx.short
  | line i =>
    obtain ⟨s, hs, -, -⟩ := he.2.2
    rw [step_line hs]
    refine hkept _ ?_
    obtain ⟨hi, hget⟩ := List.getElem?_eq_some_iff.mp hs
    rw [List.map_set, identity_handleRead (hx.running i s hs)]
    refine List.ext_getElem? fun j => ?_
    rw [List.getElem?_set]
    split
    case isFalse => rfl
    case isTrue hij =>
      subst hij
      rw [if_pos (by rwa [List.length_map]), List.getElem?_map, hs]
      rfl

/-- Behaviour stays defined unless a line is too long. -/
theorem defined_step {x : Console σ} {e : Event ε} (hx : x.Named) (he : x.Enabled ok e) (hp : Plain e) :
    (step A f x e).Defined ↔ x.Defined ∧ ¬ TooLong x e := by
  cases e with
  | accept peer =>
    refine Iff.trans ?_ (and_iff_left id).symm
    rcases peer with _ | ⟨peer, fd⟩
    · exact Iff.rfl
    · have hstart := AdminSession.overflow_start (AdminSession.short_start (A := A) hp.1 hp.2.1 hp.2.2)
      show (∀ b ∈ (x.sessions ++ [AdminSession.start A peer fd]).map AdminSession.overflow, b = false) ↔ _
      rw [List.map_append, List.forall_mem_append]
      refine and_iff_left fun b hb => ?_
      rw [List.mem_singleton.mp hb, hstart]
  | receive i bs =>
    refine Iff.trans ?_ (and_iff_left id).symm
    show (∀ b ∈ (x.sessions.modify i fun s => s.receive bs).map
      AdminSession.overflow, b = false) ↔ _
    rw [map_modify_eq (h := fun s => s.receive bs) (fun _ _ => rfl) i]
    rfl
  | fail i message =>
    refine Iff.trans ?_ (and_iff_left id).symm
    show (∀ b ∈ (x.sessions.modify i fun s => s.handleError message).map AdminSession.overflow,
      b = false) ↔ _
    rw [map_modify_eq (h := fun s => s.handleError message)
      (fun s hs => AdminSession.overflow_handleError (hx.short s hs) hp) i]
    rfl
  | other e => exact (and_iff_left id).symm
  | line i =>
    obtain ⟨s, hs, -, hline⟩ := he.2.2
    obtain ⟨⟨line, rest⟩, hnext⟩ :=
      Option.isSome_iff_exists.mp (nextLine_isSome.mpr (of_decide_eq_true hline))
    have hshort := hx.short s (List.mem_of_getElem? hs)
    have hi : i < x.sessions.length := (List.getElem?_eq_some_iff.mp hs).1
    have hlong : TooLong x (.line i : Event ε) ↔ 89 ≤ s.name.length + (printInt s.fd).length +
        ((trim isSpace line).takeWhile (· ≠ 0)).length := by
      constructor
      · rintro ⟨t, l, r, ht, hl, hlen⟩
        obtain rfl := Option.some.inj (hs.symm.trans ht)
        obtain ⟨rfl, rfl⟩ := Prod.mk.inj (Option.some.inj (hnext.symm.trans hl))
        exact hlen
      · exact fun hlen => ⟨s, line, rest, hs, hnext, hlen⟩
    -- only the handler of a line formats a text without a bound
    have hover := overflow_handleRead (A := A) hshort hnext x.market
    have hdefined : x.Defined := fun b hb => by
      obtain ⟨t, ht, rfl⟩ := List.mem_map.mp hb
      exact he.2.1 t ht
    rw [step_line hs, and_iff_right hdefined, hlong]
    constructor
    · -- the session that has taken a line too long is among those behind the handler
      intro h hlen
      have hnot := h _ (List.mem_map_of_mem (List.mem_set hi (s.handleRead A x.market).1))
      rw [hover, decide_eq_true hlen, Bool.or_true] at hnot
      exact nomatch hnot
    · intro hlen b hb
      obtain ⟨t, ht, rfl⟩ := List.mem_map.mp hb
      rcases List.mem_or_eq_of_mem_set ht with hold | rfl
      · -- another session is as it was
        exact he.2.1 t hold
      · rw [hover, he.2.1 s (List.mem_of_getElem? hs), decide_eq_false hlen]
        rfl

/-- **Undefined behaviour.** Whatever the clients type, behaviour stays defined exactly as long as no
line comes in that together with the name and the handle of its session has 89 characters or more,
blanks at its ends and what follows a zero not counted. -/
theorem overflow_iff {m : σ} {es : List (Event ε)} (hes : Machine.Along (step A f) (Enabled ok) (new m) es)
    (hp : ∀ e ∈ es, Plain e) :
    (Machine.run (step A f) (new m) es).Defined ↔
      Machine.Along (step A f) (fun x e => ¬ TooLong x e) (new m) es := by
  have hinit : (new m : Console σ).Named := ⟨fun _ _ h => (nomatch h), List.forall_mem_nil _⟩
  refine (Machine.run_iff_along (P := Defined) (fun _ _ hx he => named_step hx he.1 he.2)
    (fun _ _ hx he => defined_step hx he.1 he.2) hinit
    (hes.and (Machine.along_of_forall hp))).trans (and_iff_right (List.forall_mem_nil _))

/-- The lines of the short run fit. -/
theorem overflow_iff_helped :
    (Machine.run (step AdminServer.new fun x (_ : Empty) => x) (new ()) helped).Defined ↔
      Machine.Along (step AdminServer.new fun x (_ : Empty) => x) (fun x e => ¬ TooLong x e) (new ())
        helped :=
  overflow_iff enabled_helped (by simp [helped, Plain]; decide)

end Console

end Evtsim
