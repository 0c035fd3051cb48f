import Evtsim.Lib.Machine
import Evtsim.Lib.Printf
import Evtsim.Lib.Text

/-!
# The admin server (`adminserver.cpp`)

Any number of clients type commands at the same time. `async_read_until` keeps what has arrived for a
session in a buffer until there is a line in it, and `handle_read` takes one line at a time; between any
two of these handlers those of other sessions and of the rest of the program run. A callback acts on a
state `σ` and returns its response.

Texts for the log are put into a `char[100]` by `sprintf`; `overflow` says that one has not fitted, and
behaviour is undefined from there on. The log itself is left out. A write is recorded where it is
started. How it is carried out is left out: two writes that are under way at once may interleave, and
`handle_write`, which runs at the end of one, only reports an error, by a `sprintf` of its own and through
a `this` that may be gone by then.
-/

namespace Evtsim

open Decimal Printf Text

/-! ## Strings -/

/-- The bytes of a string: a character is a byte. -/
def toBytes (s : String) : List UInt8 := s.toList.map Char.toUInt8

def ofBytes (bs : List UInt8) : String := String.ofList (bs.map Char.ofUInt8)

/-- Bytes read as characters are written back as they were. -/
theorem toBytes_ofBytes (bs : List UInt8) : toBytes (ofBytes bs) = bs := by
  unfold toBytes ofBytes
  rw [String.toList_ofList, List.map_map]
  exact (List.map_congr_left fun b _ => UInt8.toNat_inj.mp (by
    show b.toNat % 2 ^ 8 = b.toNat
    exact Nat.mod_eq_of_lt b.toNat_lt)).trans (List.map_id bs)

/-- Different bytes make different strings. -/
theorem ofBytes_injective : Function.Injective ofBytes := fun a b h => by
  rw [← toBytes_ofBytes a, h, toBytes_ofBytes]

/-- A string has as many bytes as characters. -/
theorem length_toBytes (s : String) : (toBytes s).length = s.length := by
  rw [toBytes, List.length_map, String.length_toList]

/-! ## Commands -/

/-- `AdminContext`; a callback returns its response. -/
structure AdminContext where
  ctx : String
  cmd : String
  args : List String

/-- `AdminServer::AdminCmd` -/
structure AdminCmd (σ : Type) where
  ctx : String
  cmd : String
  args : String
  help : String
  callback : AdminContext → σ → σ × List UInt8

/-- `_command_list` and `_limits` of an `AdminServer`. -/
structure AdminServer (σ : Type) where
  commandList : List (AdminCmd σ)
  limits : List ℕ

namespace AdminServer

variable {σ : Type}

def new : AdminServer σ := { commandList := [], limits := [] }

/-- `recalculate_limits` -/
def recalculateLimits (A : AdminServer σ) : AdminServer σ :=
  { A with
    limits := A.commandList.foldl (fun limits c =>
      [max (limits.getD 0 0) ((toBytes c.ctx).length + 2), max (limits.getD 1 0) ((toBytes c.cmd).length + 2),
        max (limits.getD 2 0) ((toBytes c.args).length + 2),
        max (limits.getD 3 0) ((toBytes c.help).length + 2)]) (List.replicate 4 0) }

/-- `register_admin` -/
def registerAdmin (A : AdminServer σ) (cmd args help : String)
    (callback : AdminContext → σ → σ × List UInt8) : Except String (AdminServer σ) :=
  match cmd.toList.dropWhile (· ≠ ' ') with
  | [] => .error ("register_admin: malformed command=" ++ cmd)
  | _ :: rest =>
    let acmd : AdminCmd σ :=
      { ctx := String.ofList (cmd.toList.takeWhile (· ≠ ' ')), cmd := String.ofList rest
        args := args, help := help, callback := callback }
    .ok { A with commandList := A.commandList ++ [acmd] }.recalculateLimits

/-- The first blank ends the context. -/
theorem registerAdmin_eq (A : AdminServer σ) (ctx : String) (hctx : ' ' ∉ ctx.toList)
    (cmd args help : String) (callback : AdminContext → σ → σ × List UInt8) :
    A.registerAdmin (ctx ++ " " ++ cmd) args help callback =
      .ok (recalculateLimits
        { A with commandList := A.commandList ++ [AdminCmd.mk ctx cmd args help callback] }) := by
  have hlist : (ctx ++ " " ++ cmd).toList = ctx.toList ++ ' ' :: cmd.toList := by
    rw [String.toList_append, String.toList_append, List.append_assoc]
    rfl
  have hpos : ∀ c ∈ ctx.toList, decide (c ≠ ' ') = true := fun c hc =>
    decide_eq_true fun hcs => hctx (hcs ▸ hc)
  have hdrop : (ctx ++ " " ++ cmd).toList.dropWhile (· ≠ ' ') = ' ' :: cmd.toList := by
    rw [hlist, List.dropWhile_append_of_pos hpos]
    rfl
  have htake : (ctx ++ " " ++ cmd).toList.takeWhile (· ≠ ' ') = ctx.toList := by
    rw [hlist, List.takeWhile_append_of_pos hpos]
    exact List.append_nil _
  unfold registerAdmin
  rw [hdrop, htake]
  simp only [String.ofList_toList]

/-- `setw` with `left`. -/
def setw (width : ℕ) (text : String) : List UInt8 := pad 32 width (toBytes text)

/-- A line of the table that `handle_help` sends. -/
def row (A : AdminServer σ) (c : AdminCmd σ) : List UInt8 :=
  toBytes " " ++ setw (A.limits.getD 0 0) c.ctx ++ setw (A.limits.getD 1 0) c.cmd ++
    setw (A.limits.getD 2 0) c.args ++ setw (A.limits.getD 3 0) c.help ++ toBytes "\n"

/-! ## The table of the commands -/

/-- What a line of the table shows. -/
def cells (c : AdminCmd σ) : List (List UInt8) :=
  [toBytes c.ctx, toBytes c.cmd, toBytes c.args, toBytes c.help]

/-- A row with the limits of four columns is its padded cells between a blank and a newline. -/
theorem row_eq {A : AdminServer σ} {a b c d : ℕ} (h : A.limits = [a, b, c, d]) (x : AdminCmd σ) :
    A.row x = 32 :: ((List.zipWith (pad 32) A.limits (cells x)).flatten ++ [10]) := by
  have hblank : toBytes " " = [32] := by decide
  have hend : toBytes "\n" = [10] := by decide
  rw [row, h, hblank, hend]
  simp [setw, cells, List.append_assoc]

/-- The limits leave two blanks behind every text. -/
theorem limits_spec (cs : List (AdminCmd σ)) (a b c d : ℕ) :
    ∃ a' b' c' d', cs.foldl (fun limits c =>
        [max (limits.getD 0 0) ((toBytes c.ctx).length + 2),
          max (limits.getD 1 0) ((toBytes c.cmd).length + 2),
          max (limits.getD 2 0) ((toBytes c.args).length + 2),
          max (limits.getD 3 0) ((toBytes c.help).length + 2)]) [a, b, c, d] = [a', b', c', d'] ∧
      (a ≤ a' ∧ b ≤ b' ∧ c ≤ c' ∧ d ≤ d') ∧
      ∀ x ∈ cs, List.Forall₂ (fun width l => l.length + 2 ≤ width) [a', b', c', d'] (cells x) := by
  induction cs generalizing a b c d with
  | nil => exact ⟨a, b, c, d, rfl, by simp, List.forall_mem_nil _⟩
  | cons x cs ih =>
    obtain ⟨a', b', c', d', hfold, ⟨ha, hb, hc, hd⟩, hcs⟩ := ih (max a ((toBytes x.ctx).length + 2))
      (max b ((toBytes x.cmd).length + 2)) (max c ((toBytes x.args).length + 2))
      (max d ((toBytes x.help).length + 2))
    rw [Nat.max_le] at ha hb hc hd
    refine ⟨a', b', c', d', hfold, ⟨ha.1, hb.1, hc.1, hd.1⟩, List.forall_mem_cons.mpr ⟨?_, hcs⟩⟩
    exact .cons ha.2 (.cons hb.2 (.cons hc.2 (.cons hd.2 .nil)))

/-- Texts that fit in a table: no line breaks in them and no blanks at their ends. -/
def Tabular (c : AdminCmd σ) : Prop := ∀ l ∈ cells c, 10 ∉ l ∧ l.getLast? ≠ some 32

instance (c : AdminCmd σ) : Decidable (Tabular c) :=
  inferInstanceAs (Decidable (∀ l ∈ cells c, 10 ∉ l ∧ l.getLast? ≠ some 32))

/-- **The table.** After any registration the lines of the table that a client is shown, cut at the
limits, are the texts of the commands, in the order in which they were registered, if no text has a line
break in it or a blank at its end. -/
theorem table_columns {A B : AdminServer σ} {cmd args help : String}
    {callback : AdminContext → σ → σ × List UInt8} (h : A.registerAdmin cmd args help callback = .ok B)
    (hB : ∀ c ∈ B.commandList, Tabular c) :
    (lines 10 (B.commandList.flatMap B.row)).map (fun l => (columns B.limits l.tail).map (dropEnd 32)) =
      B.commandList.map cells := by
  obtain ⟨C, rfl⟩ : ∃ C : AdminServer σ, B = C.recalculateLimits := by
    unfold registerAdmin at h
    split at h
    · exact nomatch h
    · exact ⟨_, (Except.ok.inj h).symm⟩
  obtain ⟨a, b, c, d, hlimits, -, hfit⟩ := limits_spec C.commandList 0 0 0 0
  have hlimits' : C.recalculateLimits.limits = [a, b, c, d] := hlimits
  have hrow := fun x => row_eq hlimits' x
  have hcommands : C.recalculateLimits.commandList = C.commandList := rfl
  generalize C.recalculateLimits = B at *
  rw [hcommands] at hB ⊢
  generalize C.commandList = cs at *
  -- a line of the table is its cells, padded
  let body : AdminCmd σ → List UInt8 := fun x => 32 :: (List.zipWith (pad 32) B.limits (cells x)).flatten
  have hbody : cs.flatMap B.row = unlines 10 (cs.map body) ++ [] := by
    rw [List.append_nil, unlines, List.flatMap_map]
    exact List.flatMap_congr fun x _ => hrow x
  have hbare : ∀ l ∈ cs.map body, 10 ∉ l := by
    intro l hl hmem
    obtain ⟨x, hx, rfl⟩ := List.mem_map.mp hl
    rcases List.mem_cons.mp hmem with hblank | hmem
    · exact absurd hblank (by decide)
    rcases mem_zipWith_pad hmem with hblank | ⟨l, hl, hin⟩
    · exact absurd hblank (by decide)
    · exact (hB x hx l hl).1 hin
  rw [hbody, lines_unlines_append hbare, List.map_append, List.map_map]
  refine (List.append_nil _).trans (List.map_congr_left fun x hx => ?_)
  have hwide : List.Forall₂ (fun width l => l.length ≤ width) B.limits (cells x) :=
    hlimits' ▸ (hfit x hx).imp fun width l hl => Nat.le_of_add_right_le hl
  have hcolumns := columns_flatten 32 hwide []
  rw [List.append_nil] at hcolumns
  show (columns B.limits (List.zipWith (pad 32) B.limits (cells x)).flatten).map (dropEnd 32) = cells x
  rw [hcolumns, map_dropEnd_zipWith_pad hwide.length_eq fun l hl => (hB x hx l hl).2]

/-- A server with three commands registers a fourth one. -/
theorem table_columns_bm :
    let ignore : AdminContext → Unit → Unit × List UInt8 := fun _ x => (x, [])
    let A : AdminServer Unit :=
      { commandList :=
          [AdminCmd.mk "bm" "set" "[action] [params...]" "" ignore, AdminCmd.mk "bm" "reset" "" "" ignore,
            AdminCmd.mk "bm" "execute" "[qty]" "" ignore]
        limits := [4, 9, 22, 2] }
    let B := recalculateLimits
      { A with commandList := A.commandList ++ [AdminCmd.mk "bm" "cancel_all" "" "" ignore] }
    (lines 10 (B.commandList.flatMap B.row)).map (fun l => (columns B.limits l.tail).map (dropEnd 32)) =
      B.commandList.map cells :=
  table_columns (registerAdmin_eq _ "bm" (by decide) "cancel_all" "" "" _) (by decide +kernel)

end AdminServer

/-! ## Sessions -/

/-- `AdminSession::SessionState` -/
inductive AdminState
  | initial | pendingAuth | running
deriving DecidableEq

def AdminState.str : AdminState → String
  | initial => "Initial"
  | pendingAuth => "PendingAuth"
  | running => "Running"

/-- `AdminSession` -/
structure AdminSession where
  name : String
  fd : ℤ
  state : AdminState
  input : List UInt8
  isOpen : Bool
  sent : List (List UInt8)
  /-- A `sprintf` has written past its buffer. -/
  overflow : Bool

/-- What `boost::trim` takes off both ends of a string: the characters for which `std::isspace` holds, in
the classic locale the blank and those from `\t` to `\r`. -/
def isSpace (b : UInt8) : Bool := b = 32 || 9 ≤ b && b ≤ 13

/-- The separators of `handle_read`, a `boost::char_separator` of blank and tab. -/
def isBlank (b : UInt8) : Bool := b = 32 || b = 9

namespace AdminSession

variable {σ : Type}

/-- A `"%s fd=%d"`, with `text` behind it, for a `char[100]`. -/
def format (s : AdminSession) (text : List UInt8) : AdminSession :=
  { s with overflow := s.overflow ||
      100 ≤ (toBytes s.name ++ toBytes " fd=" ++ printInt s.fd ++ text).length }

/-- `send`. Its `async_write` may write the text in several parts, and those of two texts may interleave
when the first write is not over; `sent` keeps the texts as they are handed over. -/
def send (s : AdminSession) (msg : List UInt8) (raw : Bool) : AdminSession :=
  { s with sent := s.sent ++ [if raw then msg else msg ++ toBytes ".\n"] }

/-- `set_state` -/
def setState (s : AdminSession) (state : AdminState) : AdminSession :=
  { s.format (toBytes (" set_state=" ++ state.str)) with state := state }

/-- `handle_login` -/
def handleLogin (s : AdminSession) : AdminSession := (s.send (toBytes "ok\n") true).setState .running

/-- `handle_help` -/
def handleHelp (A : AdminServer σ) (s : AdminSession) : AdminSession :=
  if s.state ≠ .running then s.send (toBytes "please authenticate\n") true
  else s.send (A.commandList.flatMap A.row) false

/-- The loop of `handle_command`. -/
def find (A : AdminServer σ) (ctx cmd : String) : Option (AdminCmd σ) :=
  A.commandList.find? fun c => c.ctx = ctx && c.cmd = cmd

/-- `handle_command` -/
def handleCommand (A : AdminServer σ) (s : AdminSession) (tokens : List String) (x : σ) :
    AdminSession × σ :=
  if s.state ≠ .running then (s.send (toBytes "please authenticate\n") true, x)
  else
    match tokens with
    | ctx :: cmd :: args =>
      match find A ctx cmd with
      | some c =>
        let r := c.callback { ctx := c.ctx, cmd := c.cmd, args := args } x
        -- the size of the response is printed as an `int`
        ((s.send r.2 true).format
          (toBytes " response len=" ++ printInt (toSigned 4 (r.2.length % 256 ^ 4))), r.1)
      | none => (s.send (toBytes "unknown command\n") false, x)
    | _ => (s.send (toBytes "invalid input\n") false, x)

/-- The tokens of a line: a `char_separator` that is given its separators only drops them, and drops the
empty tokens that neighbouring ones leave. -/
def tokens (line : List UInt8) : List String := (words isBlank (trim isSpace line)).map ofBytes

/-- The branches of `handle_read`. -/
def dispatch (A : AdminServer σ) (s : AdminSession) (tokens : List String) (x : σ) : AdminSession × σ :=
  if tokens.head? = some "login" then (s.handleLogin, x)
  else if tokens = ["help"] ∨ tokens = ["?"] then (s.handleHelp A, x)
  else if tokens = ["quit"] then ({ s.format (toBytes " quit") with isOpen := false }, x)
  else s.handleCommand A tokens x

/-- The line has been read and is printed, `%s` up to a zero. -/
def printLine (s : AdminSession) (line rest : List UInt8) : AdminSession :=
  { s with input := rest }.format (toBytes " input=" ++ (trim isSpace line).takeWhile (· ≠ 0))

/-- `handle_read` without an error. -/
def handleRead (A : AdminServer σ) (s : AdminSession) (x : σ) : AdminSession × σ :=
  match nextLine 10 s.input with
  | none => (s, x)
  | some (line, rest) => (s.printLine line rest).dispatch A (tokens line) x

/-- What `async_read_until` puts into the buffer. It reads as much as the socket has and completes once the
buffer holds the delimiter: what stands behind the delimiter stays in the buffer for the next call, which
completes at once if it holds another one. -/
def receive (s : AdminSession) (bs : List UInt8) : AdminSession := { s with input := s.input ++ bs }

/-- `handle_read` with an error. -/
def handleError (s : AdminSession) (message : String) : AdminSession :=
  { s.format (toBytes (" disconnect ec=" ++ message)) with isOpen := false }

/-- A session that has been accepted, with the name and the handle that `start` gives it. -/
def new (peer : String) (fd : ℤ) : AdminSession :=
  { name := "adminsession_" ++ peer, fd := fd, state := .initial, input := [], isOpen := true, sent := []
    overflow := false }

/-- `start`, for the peer `s_peer`. -/
def start (A : AdminServer σ) (peer : String) (fd : ℤ) : AdminSession :=
  handleHelp A ((new peer fd).setState .running)

end AdminSession

/-! ## The console -/

/-- All sessions, in the order in which they have been accepted, and the state that the callbacks act
on. -/
structure Console (σ : Type) where
  sessions : List AdminSession
  market : σ
  /-- The exception that a handler has thrown. -/
  thrown : Option String

namespace Console

variable {σ ε : Type}

/-- What can happen; an `ε` is a handler of the rest of the program. -/
inductive Event (ε : Type)
  | accept (peer : Option (String × ℤ))
  | receive (i : ℕ) (bs : List UInt8)
  | line (i : ℕ)
  | fail (i : ℕ) (message : String)
  | other (e : ε)

def new (x : σ) : Console σ := { sessions := [], market := x, thrown := none }

variable (A : AdminServer σ) (f : σ → ε → σ)

/-- One handler; without a peer `remote_endpoint` throws. -/
def step (x : Console σ) : Event ε → Console σ
  | .accept none => { x with thrown := some "remote_endpoint: Transport endpoint is not connected" }
  | .accept (some (peer, fd)) => { x with sessions := x.sessions ++ [.start A peer fd] }
  | .receive i bs => { x with sessions := x.sessions.modify i fun s => s.receive bs }
  | .line i =>
    match x.sessions[i]? with
    | none => x
    | some s =>
      let r := s.handleRead A x.market
      { x with sessions := x.sessions.set i r.1, market := r.2 }
  | .fail i message => { x with sessions := x.sessions.modify i fun s => s.handleError message }
  | .other e => { x with market := f x.market e }

/-- The socket of session `i` is open, and there is a line in its buffer or not. -/
def Waits (x : Console σ) (i : ℕ) (line : Bool) : Prop :=
  ∃ s, x.sessions[i]? = some s ∧ s.isOpen = true ∧ decide (10 ∈ s.input) = line

instance (x : Console σ) (i : ℕ) (line : Bool) : Decidable (x.Waits i line) :=
  match h : x.sessions[i]? with
  | none => isFalse fun ⟨_, hs, _⟩ => nomatch h.symm.trans hs
  | some s => decidable_of_iff (s.isOpen = true ∧ decide (10 ∈ s.input) = line)
      ⟨fun hs => ⟨s, h, hs⟩, fun ⟨_, ht, hs⟩ => Option.some.inj (h.symm.trans ht) ▸ hs⟩

/-- Whether a handler can be the next to run: none after an exception or an overflow. The read of a
session completes with a line as soon as there is one, and goes on or fails otherwise. -/
def Enabled (ok : σ → ε → Prop) (x : Console σ) (e : Event ε) : Prop :=
  x.thrown = none ∧ (∀ s ∈ x.sessions, s.overflow = false) ∧
    match e with
    | .accept _ => True
    | .receive i _ => x.Waits i false
    | .line i => x.Waits i true
    | .fail i _ => x.Waits i false
    | .other e => ok x.market e

instance (ok : σ → ε → Prop) [∀ y e, Decidable (ok y e)] (x : Console σ) : ∀ e, Decidable (x.Enabled ok e)
  | .accept _ => inferInstanceAs (Decidable (_ ∧ _ ∧ True))
  | .receive i _ => inferInstanceAs (Decidable (_ ∧ _ ∧ x.Waits i false))
  | .line i => inferInstanceAs (Decidable (_ ∧ _ ∧ x.Waits i true))
  | .fail i _ => inferInstanceAs (Decidable (_ ∧ _ ∧ x.Waits i false))
  | .other e => inferInstanceAs (Decidable (_ ∧ _ ∧ ok x.market e))

end Console

end Evtsim
