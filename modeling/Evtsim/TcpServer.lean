import Evtsim.Ouch.Session
import Evtsim.Ouch.LogText
import Evtsim.Boe.Session
import Evtsim.Boe.LogText
import Evtsim.Lib.Framing

/-!
# Reading from the socket (`tcp_server.cpp`)

`SoupBinTCPServer::read` and `BOEServer::read` walk over the bytes of one completed read, log each packet
and hand it to the virtual `handle_packet` of their session. Both loops are `Framing.frames`; they differ
in where a packet states its length, in its byte order and in the log call. The buffer is not cleared
between reads, so behind the received bytes stands whatever an earlier read has left.

The text of the log call goes to a file that nothing reads back. What counts is whether the call stays in
its local buffer: a write behind it is undefined behaviour, and nothing can be said from then on. A read
behind the packet or the buffer only shows in the text.

`from_network` swaps bytes in place, but within the packet it was called for only, so the loop can be
read off the bytes as they were received. Writing the pending messages to the socket is left out.
-/

namespace Evtsim

open Wire Session

/-- The virtual functions of `session` that a server calls while it reads. -/
structure SessionClass (σ : Type) where
  handlePacket : σ → Mem → ℕ → Except String σ
  disconnect : σ → σ

def OuchSession.sessionClass {W : Type} (E : Env W) : SessionClass (OuchSession W) :=
  { handlePacket := fun s p _ => OuchSession.handlePacket E s p
    disconnect := fun s => { s with state := .notLoggedIn } }

def BoeSession.sessionClass {W : Type} (E : Env W) : SessionClass (BoeSession W) :=
  { handlePacket := fun s p _ => .ok (BoeSession.handlePacket E s p)
    disconnect := fun s => { s with state := .notLoggedIn } }

/-- What an `async_read_some` completes with: the end of the stream, or some bytes at the start of the
buffer with the memory behind them. -/
inductive Received
  | eof
  | bytes (bs : List UInt8) (behind : Mem)

namespace TcpServer

variable {σ : Type}

/-- What the two servers do with a packet in ways of their own. -/
structure Protocol extends Framing.Format where
  /-- The log call in front of `handle_packet` writes to its own buffer only. -/
  logs : Mem → Bool

instance : Coe Protocol Framing.Format := ⟨Protocol.toFormat⟩

/-- `SoupBinTCPServer::read` finds a big-endian length at the start of a packet. Its log call is
`outbound_to_string`. -/
def soupBin : Protocol where
  header := 2
  size p := (byteSwap16 (Ouch.MsgHeader.ofMem p).length).toNat + 2
  size_pos _ := Nat.succ_pos _
  size_congr h := by
    dsimp only [Ouch.MsgHeader.ofMem]
    rw [Mem.Agree.u16 h (Nat.le_refl _)]
  logs _ := true

/-- `BOEServer::read` finds a little-endian length behind `start_of_msg`. Its log call is
`boe::to_string`. -/
def boe : Protocol where
  header := 4
  size p := (p.u16 2).toNat + 2
  size_pos _ := Nat.succ_pos _
  size_congr h := by rw [Mem.Agree.u16 h (Nat.le_refl _)]
  logs p := decide (Boe.LogText.Fits p)

/-- `outbound_to_string` never writes behind its buffer. -/
theorem soupBin_logs_iff (p : Mem) : soupBin.logs p = true ↔
    ∀ buf i, Ouch.LogText.sizeofBuf ≤ i →
      ((Ouch.LogText.outbound.branch p).fill buf p).1 i = buf i :=
  iff_of_true rfl fun buf _ hi => Ouch.LogText.outbound_fill_of_le buf p hi

/-- `boe::to_string` stays inside its buffer for some messages. -/
theorem boe_logs_iff {datetime : UInt64 → List UInt8} (htime : ∀ t, (datetime t).length < 32) (p : Mem) :
    boe.logs p = true ↔ Boe.LogText.InBuffer datetime p :=
  decide_eq_true_iff.trans ⟨Boe.LogText.inBuffer_of_fits htime, Boe.LogText.fits_of_inBuffer⟩

/-- A turn of the loop: the log call and `handle_packet`. -/
def turn (P : Protocol) (C : SessionClass σ) (market : σ) (p : Mem × ℕ) : Except String σ :=
  if P.logs p.1 then C.handlePacket market p.1 p.2 else .error "write behind a local buffer"

/-- A turn of the loop succeeds exactly if the log call and the handler do. -/
theorem turn_eq_ok_iff {P : Protocol} {C : SessionClass σ} {s t : σ} {p : Mem × ℕ} :
    turn P C s p = .ok t ↔ P.logs p.1 = true ∧ C.handlePacket s p.1 p.2 = .ok t := by
  unfold turn
  by_cases hlog : P.logs p.1 = true
  · rw [if_pos hlog, and_iff_right hlog]
  · rw [if_neg hlog]
    exact iff_of_false (fun h => nomatch h) fun h => hlog h.1

/-- The body that the two `read` functions share. -/
def read (P : Protocol) (C : SessionClass σ) (market : σ) : Received → Except String σ
  | .eof => .ok (C.disconnect market)
  | .bytes bs behind =>
    (Framing.frames P (Mem.write bs behind) bs.length 0).foldlM (turn P C) market

/-- `SoupBinTCPServer::read` -/
def soupBinRead (C : SessionClass σ) (market : σ) (r : Received) : Except String σ :=
  read soupBin C market r

/-- `BOEServer::read` -/
def boeRead (C : SessionClass σ) (market : σ) (r : Received) : Except String σ :=
  read boe C market r

/-- The log calls that a read makes stay in their buffers. -/
def Protocol.Logs (P : Protocol) (bs : List UInt8) (behind : Mem) : Prop :=
  ∀ p ∈ Framing.frames P (Mem.write bs behind) bs.length 0, P.logs p.1 = true

instance (P : Protocol) (bs : List UInt8) (behind : Mem) : Decidable (P.Logs bs behind) :=
  inferInstanceAs (Decidable (∀ p ∈ Framing.frames _ _ _ _, P.logs p.1 = true))

/-- A read hands on all its packets exactly if it logs them. -/
theorem read_eq_ok_iff {P : Protocol} {C : SessionClass σ} {s t : σ} {bs : List UInt8} {behind : Mem} :
    read P C s (.bytes bs behind) = .ok t ↔
      P.Logs bs behind ∧ (Framing.frames P (Mem.write bs behind) bs.length 0).foldlM
        (fun market p => C.handlePacket market p.1 p.2) s = .ok t := by
  unfold read Protocol.Logs
  dsimp only
  generalize Framing.frames P (Mem.write bs behind) bs.length 0 = ps
  induction ps generalizing s with
  | nil => exact (and_iff_right (List.forall_mem_nil _)).symm
  | cons p ps ih =>
    rw [List.foldlM_cons, List.foldlM_cons, List.forall_mem_cons]
    rcases hturn : turn P C s p with e | s'
    · -- not logged, or not handled
      refine iff_of_false (fun h => nomatch h) fun h => ?_
      rcases hhandle : C.handlePacket s p.1 p.2 with e' | s'
      · rw [hhandle] at h
        exact nomatch h.2
      · have hok := turn_eq_ok_iff.mpr ⟨h.1.1, hhandle⟩
        rw [hturn] at hok
        exact nomatch hok
    · obtain ⟨hlog, hhandle⟩ := turn_eq_ok_iff.mp hturn
      rw [hhandle, and_iff_right hlog]
      exact ih

/-- The log calls of the OUCH server never fail. -/
theorem soupBin_logs (bs : List UInt8) (behind : Mem) : soupBin.Logs bs behind := fun _ _ => rfl

/-- A session that keeps the packets it is handed. -/
def recorder : SessionClass (List (List UInt8)) :=
  { handlePacket := fun log p len => .ok (log ++ [p.take len])
    disconnect := fun log => log }

/-- The packets handed on over successive reads. -/
def passed (read : SessionClass (List (List UInt8)) → List (List UInt8) → Received →
    Except String (List (List UInt8))) (reads : List (List UInt8 × Mem)) :
    Except String (List (List UInt8)) :=
  reads.foldlM (fun log r => read recorder log (.bytes r.1 r.2)) []

/-- Every read ends where a packet ends. -/
def EndsOnPackets (sent : List (List UInt8)) (reads : List (List UInt8 × Mem)) : Prop :=
  ∃ groups : List (List (List UInt8)), groups.flatten = sent ∧
    groups.map List.flatten = reads.map Prod.fst

/-- The recorder notes the bytes of each packet. -/
private theorem foldlM_recorder (ps : List (Mem × ℕ)) (log : List (List UInt8)) :
    ps.foldlM (fun log p => recorder.handlePacket log p.1 p.2) log =
      .ok (log ++ ps.map fun p => p.1.take p.2) := by
  induction ps generalizing log with
  | nil => rw [List.map_nil, List.append_nil]; rfl
  | cons p ps ih =>
    show ps.foldlM _ (log ++ [p.1.take p.2]) = _
    rw [ih, List.append_assoc]
    rfl

/-- The recording session has kept what the framing loop has handed on, if all of it has been logged. -/
theorem passed_iff (P : Protocol) (reads : List (List UInt8 × Mem)) (sent : List (List UInt8)) :
    passed (read P) reads = .ok sent ↔
      (∀ r ∈ reads, P.Logs r.1 r.2) ∧ Framing.handled P reads = sent := by
  have hfold : ∀ log, reads.foldlM (fun log r => read P recorder log (.bytes r.1 r.2)) log = .ok sent ↔
      (∀ r ∈ reads, P.Logs r.1 r.2) ∧ log ++ Framing.handled P reads = sent := by
    induction reads with
    | nil =>
      intro log
      show Except.ok log = .ok sent ↔ _ ∧ log ++ [] = sent
      rw [List.append_nil, Except.ok.injEq]
      exact (and_iff_right (List.forall_mem_nil _)).symm
    | cons r reads ih =>
      intro log
      have hr : ∀ log', read P recorder log (.bytes r.1 r.2) = .ok log' ↔
          P.Logs r.1 r.2 ∧ log ++ Framing.packets P (Mem.write r.1 r.2) r.1.length 0 = log' := by
        intro log'
        rw [read_eq_ok_iff, foldlM_recorder, Except.ok.injEq, Framing.packets]
      rw [List.foldlM_cons, List.forall_mem_cons, Framing.handled, List.flatMap_cons, ← List.append_assoc]
      rcases hread : read P recorder log (.bytes r.1 r.2) with e | log'
      · -- the read has not been logged
        refine iff_of_false (fun h => by cases h) fun h => ?_
        have hok := (hr _).mpr ⟨h.1.1, rfl⟩
        rw [hread] at hok
        cases hok
      · obtain ⟨hlogs, hlog'⟩ := (hr log').mp hread
        rw [hlog', and_iff_right hlogs]
        exact ih log'
  exact hfold []

/-- **Segmentation.** Both servers hand on the packets that were sent, each once, whole and in order,
exactly when every read ends on a packet boundary, and the BOE server has logged them all without writing
behind a buffer. -/
theorem read_segmentation :
    (∀ sent reads, (∀ p ∈ sent, soupBin.WellFormed p) →
      (reads.map Prod.fst).flatten = sent.flatten →
      (passed soupBinRead reads = .ok sent ↔ EndsOnPackets sent reads)) ∧
    (∀ sent reads, (∀ p ∈ sent, boe.WellFormed p) →
      (reads.map Prod.fst).flatten = sent.flatten →
      (passed boeRead reads = .ok sent ↔
        (∀ r ∈ reads, boe.Logs r.1 r.2) ∧ EndsOnPackets sent reads)) := by
  constructor
  · intro sent reads hwf hcut
    have hlogs : ∀ r ∈ reads, soupBin.Logs r.1 r.2 := fun r _ => soupBin_logs r.1 r.2
    exact (passed_iff soupBin reads sent).trans
      ((and_iff_right hlogs).trans (Framing.handled_eq_iff hwf hcut))
  · intro sent reads hwf hcut
    exact (passed_iff boe reads sent).trans (and_congr_right' (Framing.handled_eq_iff hwf hcut))

/-- Memory of zeros behind the received bytes. -/
def zeros : Mem := fun _ => 0

/-- A client heartbeat of either protocol. -/
def soupBinHeartbeat : List UInt8 := [0, 1, 82]
def boeHeartbeat : List UInt8 := [0xBA, 0xBA, 8, 0, 3, 0, 0, 0, 0, 0]

/-- Two heartbeats that arrive in one read are both handed on. -/
theorem read_segmentation_two :
    passed soupBinRead [(soupBinHeartbeat ++ soupBinHeartbeat, zeros)] =
        .ok [soupBinHeartbeat, soupBinHeartbeat] ∧
      passed boeRead [(boeHeartbeat ++ boeHeartbeat, zeros)] = .ok [boeHeartbeat, boeHeartbeat] := by
  constructor
  · have hiff := read_segmentation.1 [soupBinHeartbeat, soupBinHeartbeat]
      [(soupBinHeartbeat ++ soupBinHeartbeat, zeros)] (by decide) rfl
    exact hiff.mpr ⟨[[soupBinHeartbeat, soupBinHeartbeat]], rfl, rfl⟩
  · have hiff := read_segmentation.2 [boeHeartbeat, boeHeartbeat]
      [(boeHeartbeat ++ boeHeartbeat, zeros)] (by decide) rfl
    exact hiff.mpr ⟨by decide +kernel, [[boeHeartbeat, boeHeartbeat]], rfl, rfl⟩

/-- The first packet that is handed on from the first read. -/
private theorem head_handled (f : Framing.Format) (r : List UInt8 × Mem) (reads : List (List UInt8 × Mem))
    (h : 0 < r.1.length) :
    (Framing.handled f (r :: reads)).head? =
      some ((Mem.write r.1 r.2).take (f.size (Mem.write r.1 r.2))) := by
  rw [Framing.handled, List.flatMap_cons, Framing.packets_of_lt h, Mem.at_zero]
  rfl

/-- A heartbeat cut after its first byte is not handed on: the byte that has arrived and the byte
behind it are. -/
theorem read_cut_packet :
    (¬ ∀ sent reads, (∀ p ∈ sent, soupBin.WellFormed p) →
      (∀ r ∈ reads, 1 ≤ r.1.length ∧ r.1.length ≤ 4096) →
      (reads.map Prod.fst).flatten = sent.flatten → passed soupBinRead reads = .ok sent) ∧
    (¬ ∀ sent reads, (∀ p ∈ sent, boe.WellFormed p) →
      (∀ r ∈ reads, 1 ≤ r.1.length ∧ r.1.length ≤ 4096) →
      (reads.map Prod.fst).flatten = sent.flatten → passed boeRead reads = .ok sent) := by
  constructor
  · intro h
    have hcut := h [soupBinHeartbeat] [([0], zeros), ([1, 82], zeros)] (by decide) (by simp) rfl
    have hhandled := ((passed_iff soupBin _ _).mp hcut).2
    have hhead := head_handled soupBin ([0], zeros) [([1, 82], zeros)] (by decide)
    rw [hhandled] at hhead
    revert hhead
    decide
  · intro h
    have hcut := h [boeHeartbeat] [([0xBA], zeros), ([0xBA, 8, 0, 3, 0, 0, 0, 0, 0], zeros)]
      (by decide) (by simp) rfl
    have hhandled := ((passed_iff boe _ _).mp hcut).2
    have hhead := head_handled boe ([0xBA], zeros) [([0xBA, 8, 0, 3, 0, 0, 0, 0, 0], zeros)]
      (by decide)
    rw [hhandled] at hhead
    revert hhead
    decide

end TcpServer

end Evtsim
