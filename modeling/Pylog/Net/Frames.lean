import Pylog.Base.Framing
import Pylog.Base.Handler
import Pylog.Raft.Log

/-!
# Pylog.Net.Frames — length-prefixed JSON frames over a socket (net.py:14–38)

A socket is the bytes still to come and the sizes the operating system picks for the chunks: any
size from one byte to what `recv` asked for, whatever the pick.  When no bytes are left `recv` returns
nothing, since the peer has closed.  JSON is a parameter.
-/

namespace Pylog.Net

open Raft (Bytes)
open Effect Effect.Handler Framing

def maxFrameBytes : ℕ := 64 * 1024 * 1024

def frameHeaderSize : ℕ := 4

/-- `json.dumps(obj).encode("utf-8")` and `json.loads(data.decode("utf-8"))`. -/
structure Json (α : Type) where
  dumps : α → Bytes
  loads : Bytes → Option α

inductive NetError
  | disconnected (message : String)
  | valueError (message : String)
  /-- The bytes are no JSON text. -/
  | jsonError
  | structError
  deriving DecidableEq, Repr

structure Socket where
  pending : Bytes
  picks : ℕ → ℕ

abbrev NetM (α : Type) := Handler Socket Empty NetError α

/-- `sock.recv(n)`. -/
def recv (n : ℕ) : NetM Bytes := fun s =>
  let size := max 1 (min (s.picks 0) n)
  ⟨⟨s.pending.drop size, fun i => s.picks (i + 1)⟩, [], .ok (s.pending.take size)⟩

/-- The loop of `_recv_exact` with `buf` read; every chunk has a byte, so `n` is enough fuel. -/
def recvLoop (n : ℕ) : ℕ → Bytes → NetM Bytes
  | 0, buf => pure buf
  | fuel + 1, buf =>
    if buf.length < n then do
      let chunk ← recv (n - buf.length)
      if chunk = [] then raise (.disconnected "peer closed")
      else recvLoop n fuel (buf ++ chunk)
    else pure buf

def recvExact (n : ℕ) : NetM Bytes := recvLoop n n []

section Codec

variable {α : Type} (json : Json α)

/-- The bytes `send_frame` hands to `sendall`. -/
def sendFrame (obj : α) : Except NetError Bytes :=
  let data := json.dumps obj
  if data.length < 2 ^ 32 then .ok (word frameHeaderSize data.length ++ data)
  else .error .structError

/-- One frame after the other. -/
def sendFrames : List α → Except NetError Bytes
  | [] => .ok []
  | obj :: rest => do
    let frame ← sendFrame json obj
    let frames ← sendFrames rest
    pure (frame ++ frames)

def recvFrame : NetM α := do
  let header ← recvExact frameHeaderSize
  let length := number header
  if maxFrameBytes < length then raise (.valueError ("frame too large: " ++ toString length))
  else do
    let data ← recvExact length
    match json.loads data with
    | some obj => pure obj
    | none => raise .jsonError

/-- At most `n` calls of `recv_frame`, up to the first that raises. -/
def recvFrames : ℕ → Socket → List α × Option NetError
  | 0, _ => ([], none)
  | n + 1, s =>
    match (recvFrame json s).result with
    | .ok obj =>
      let r := recvFrames n (recvFrame json s).state
      (obj :: r.1, r.2)
    | .error e => ([], some e)

/-- The values whose frames are complete in the first `k` bytes. -/
def arrived : List α → ℕ → List α
  | [], _ => []
  | obj :: rest, k =>
    let size := frameHeaderSize + (json.dumps obj).length
    if size ≤ k then obj :: arrived rest (k - size) else []

end Codec

/-! ### Reading exactly -/

variable {s : Socket}

/-- A chunk is the start of what is pending: not empty unless nothing is, and not too long. -/
theorem recv_spec {n : ℕ} (hn : 0 < n) (s : Socket) : ∃ size picks, 0 < size ∧ size ≤ n ∧
    recv n s = ⟨⟨s.pending.drop size, picks⟩, [], .ok (s.pending.take size)⟩ :=
  ⟨max 1 (min (s.picks 0) n), _, by omega, by omega, rfl⟩

/-- Any such chunk can be returned. -/
theorem recv_any {n size : ℕ} (h0 : 0 < size) (hn : size ≤ n) (pending : Bytes) (picks : ℕ → ℕ) :
    recv n ⟨pending, fun i => if i = 0 then size else picks (i - 1)⟩ =
      ⟨⟨pending.drop size, picks⟩, [], .ok (pending.take size)⟩ := by
  have hsize : max 1 (min size n) = size := by omega
  unfold recv
  simp [hsize]

/-- With enough bytes pending the loop reads exactly those it was asked for. -/
theorem recvLoop_run (n : ℕ) : ∀ (fuel : ℕ) (buf : Bytes) (s : Socket), n ≤ buf.length + fuel →
    n ≤ buf.length + s.pending.length → ∃ picks, recvLoop n fuel buf s =
      ⟨⟨s.pending.drop (n - buf.length), picks⟩, [], .ok (buf ++ s.pending.take (n - buf.length))⟩
  | 0, buf, s, hfuel, _ => by
    refine ⟨s.picks, ?_⟩
    rw [show n - buf.length = 0 by omega, List.take_zero, List.append_nil]
    rfl
  | fuel + 1, buf, s, hfuel, hn => by
    unfold recvLoop
    by_cases hlt : buf.length < n
    · rw [if_pos hlt]
      obtain ⟨size, picks, h0, hsize, hrecv⟩ := recv_spec (show 0 < n - buf.length by omega) s
      have htake : (s.pending.take size).length = size := by
        rw [List.length_take]
        omega
      have hne : s.pending.take size ≠ [] := by
        intro hnil
        rw [hnil] at htake
        simp at htake
        omega
      have hlen : (buf ++ s.pending.take size).length = buf.length + size := by
        rw [List.length_append, htake]
      obtain ⟨picks', hrun⟩ := recvLoop_run n fuel (buf ++ s.pending.take size)
        ⟨s.pending.drop size, picks⟩ (by omega) (by
          rw [hlen, List.length_drop]
          omega)
      have hsplit : n - buf.length = size + (n - (buf.length + size)) := by omega
      have hread : recvLoop n fuel (buf ++ s.pending.take size) ⟨s.pending.drop size, picks⟩ =
          ⟨⟨s.pending.drop (n - buf.length), picks'⟩, [],
            .ok (buf ++ s.pending.take (n - buf.length))⟩ := by
        rw [hrun, hlen]
        dsimp only
        rw [List.drop_drop, List.append_assoc, hsplit, List.take_add]
      exact ⟨picks', bind_run hrecv ((congrFun (if_neg hne) _).trans hread)⟩
    · rw [if_neg hlt, show n - buf.length = 0 by omega, List.take_zero, List.append_nil]
      exact ⟨s.picks, rfl⟩

/-- With too few bytes pending it ends where the peer has closed. -/
theorem recvLoop_short (n : ℕ) : ∀ (fuel : ℕ) (buf : Bytes) (s : Socket), n ≤ buf.length + fuel →
    buf.length + s.pending.length < n →
    ∃ s', recvLoop n fuel buf s = ⟨s', [], .error (.disconnected "peer closed")⟩
  | 0, buf, s, hfuel, hn => by omega
  | fuel + 1, buf, s, hfuel, hn => by
    unfold recvLoop
    rw [if_pos (by omega)]
    obtain ⟨size, picks, h0, hsize, hrecv⟩ := recv_spec (show 0 < n - buf.length by omega) s
    by_cases hnil : s.pending.take size = []
    · rw [hnil] at hrecv
      exact ⟨_, bind_run hrecv rfl⟩
    · obtain ⟨s', hrun⟩ := recvLoop_short n fuel (buf ++ s.pending.take size)
        ⟨s.pending.drop size, picks⟩ (by
          have := List.length_pos_iff.mpr hnil
          rw [List.length_append]
          omega) (by
          rw [List.length_append, List.length_take, List.length_drop]
          omega)
      exact ⟨s', bind_run hrecv ((congrFun (if_neg hnil) _).trans hrun)⟩

theorem recvExact_run {n : ℕ} (hn : n ≤ s.pending.length) : ∃ picks, recvExact n s =
    ⟨⟨s.pending.drop n, picks⟩, [], .ok (s.pending.take n)⟩ := by
  obtain ⟨picks, hrun⟩ := recvLoop_run n n [] s (by omega) (by simpa using hn)
  exact ⟨picks, hrun⟩

theorem recvExact_short {n : ℕ} (hn : s.pending.length < n) :
    ∃ s', recvExact n s = ⟨s', [], .error (.disconnected "peer closed")⟩ :=
  recvLoop_short n n [] s (by omega) (by simpa using hn)

/-! ### Frames -/

section Frames

variable {α : Type} {json : Json α} {obj : α}

def frame (json : Json α) (obj : α) : Bytes :=
  word frameHeaderSize (json.dumps obj).length ++ json.dumps obj

theorem length_frame (json : Json α) (obj : α) :
    (frame json obj).length = frameHeaderSize + (json.dumps obj).length := by
  simp [frame]

theorem sendFrame_eq (h : (json.dumps obj).length ≤ maxFrameBytes) :
    sendFrame json obj = .ok (frame json obj) :=
  if_pos (Nat.lt_of_le_of_lt h (by decide))

theorem sendFrames_eq : ∀ {objs : List α}, (∀ v ∈ objs, (json.dumps v).length ≤ maxFrameBytes) →
    sendFrames json objs = .ok (objs.flatMap (frame json))
  | [], _ => rfl
  | obj :: rest, h => by
    rw [sendFrames, sendFrame_eq (h obj List.mem_cons_self),
      sendFrames_eq fun v hv => h v (List.mem_cons_of_mem _ hv)]
    rfl

theorem number_header (h : (json.dumps obj).length ≤ maxFrameBytes) :
    number (word frameHeaderSize (json.dumps obj).length) = (json.dumps obj).length :=
  number_word (Nat.lt_of_le_of_lt h (by decide))

/-- The length field of a frame is read first. -/
theorem recvExact_header (json : Json α) (obj : α) (rest : Bytes) (picks : ℕ → ℕ) :
    ∃ picks', recvExact frameHeaderSize ⟨frame json obj ++ rest, picks⟩ =
      ⟨⟨json.dumps obj ++ rest, picks'⟩, [], .ok (word frameHeaderSize (json.dumps obj).length)⟩ := by
  have hlen := length_frame json obj
  have hword : (word frameHeaderSize (json.dumps obj).length).length = frameHeaderSize := length_word ..
  obtain ⟨picks', hhead⟩ := recvExact_run (s := ⟨frame json obj ++ rest, picks⟩)
    (show frameHeaderSize ≤ (frame json obj ++ rest).length by rw [List.length_append]; omega)
  have hshape : frame json obj ++ rest =
      word frameHeaderSize (json.dumps obj).length ++ (json.dumps obj ++ rest) := List.append_assoc ..
  dsimp only at hhead
  rw [hshape, List.take_left' hword, List.drop_left' hword] at hhead
  rw [hshape]
  exact ⟨picks', hhead⟩

/-- A complete frame is read as a whole, and nothing behind it. -/
theorem recvFrame_whole (hjson : json.loads (json.dumps obj) = some obj)
    (h : (json.dumps obj).length ≤ maxFrameBytes) (rest : Bytes) (picks : ℕ → ℕ) :
    ∃ picks', recvFrame json ⟨frame json obj ++ rest, picks⟩ = ⟨⟨rest, picks'⟩, [], .ok obj⟩ := by
  obtain ⟨picks₁, hhead⟩ := recvExact_header json obj rest picks
  obtain ⟨picks₂, hbody⟩ := recvExact_run (s := ⟨json.dumps obj ++ rest, picks₁⟩)
    (show (json.dumps obj).length ≤ (json.dumps obj ++ rest).length by
      rw [List.length_append]
      omega)
  dsimp only at hbody
  rw [List.take_left, List.drop_left] at hbody
  refine ⟨picks₂, bind_run hhead ?_⟩
  rw [number_header h, if_neg (Nat.not_lt.mpr h)]
  refine bind_run hbody ?_
  rw [hjson]
  rfl

/-- A frame that is too long is refused with its length field read. -/
theorem recvFrame_refused (hword : (json.dumps obj).length < 2 ^ 32)
    (hlong : maxFrameBytes < (json.dumps obj).length) (rest : Bytes) (picks : ℕ → ℕ) :
    ∃ picks', recvFrame json ⟨frame json obj ++ rest, picks⟩ = ⟨⟨json.dumps obj ++ rest, picks'⟩, [],
      .error (.valueError ("frame too large: " ++ toString (json.dumps obj).length))⟩ := by
  obtain ⟨picks', hhead⟩ := recvExact_header json obj rest picks
  refine ⟨picks', bind_run hhead ?_⟩
  rw [number_word (Nat.lt_of_lt_of_le hword (by decide)), if_pos hlong]
  rfl

/-- A frame that is cut off raises, wherever the cut falls. -/
theorem recvFrame_cut (h : (json.dumps obj).length ≤ maxFrameBytes) {k : ℕ}
    (hk : k < frameHeaderSize + (json.dumps obj).length) (picks : ℕ → ℕ) :
    ∃ s', recvFrame json ⟨(frame json obj).take k, picks⟩ =
      ⟨s', [], .error (.disconnected "peer closed")⟩ := by
  have hlen := length_frame json obj
  have hword : (word frameHeaderSize (json.dumps obj).length).length = frameHeaderSize := length_word ..
  have htake : ((frame json obj).take k).length = k := by
    rw [List.length_take]
    omega
  unfold recvFrame
  rcases Nat.lt_or_ge k frameHeaderSize with hlt | hge
  · -- inside the length field
    obtain ⟨s', hhead⟩ := recvExact_short (s := ⟨(frame json obj).take k, picks⟩)
      (show ((frame json obj).take k).length < frameHeaderSize by omega)
    exact ⟨s', bind_error hhead⟩
  · obtain ⟨picks₁, hhead⟩ := recvExact_run (s := ⟨(frame json obj).take k, picks⟩)
      (show frameHeaderSize ≤ ((frame json obj).take k).length by omega)
    dsimp only at hhead
    rw [List.take_take, Nat.min_eq_left hge, frame, List.take_left' hword] at hhead
    obtain ⟨s', hbody⟩ := recvExact_short
      (s := ⟨((frame json obj).take k).drop frameHeaderSize, picks₁⟩)
      (show (((frame json obj).take k).drop frameHeaderSize).length < (json.dumps obj).length by
        rw [List.length_drop]
        omega)
    refine ⟨s', (bind_run hhead ?_).trans rfl⟩
    rw [number_header h, if_neg (Nat.not_lt.mpr h)]
    exact bind_error hbody

/-- What arrives of a stream cut behind `k` bytes. -/
theorem recvFrames_cut (hjson : ∀ v, json.loads (json.dumps v) = some v) : ∀ {objs : List α},
    (∀ v ∈ objs, (json.dumps v).length ≤ maxFrameBytes) → ∀ (k : ℕ) (picks : ℕ → ℕ) (n : ℕ),
    (arrived json objs k).length ≤ n →
    recvFrames json (n + 1) ⟨(objs.flatMap (frame json)).take k, picks⟩ =
      (arrived json objs k, some (.disconnected "peer closed"))
  | [], _, k, picks, n, hn => by
    obtain ⟨s', hhead⟩ := recvExact_short (s := ⟨([] : Bytes), picks⟩)
      (show ([] : Bytes).length < frameHeaderSize by decide)
    have hrun : recvFrame json ⟨[], picks⟩ = ⟨s', [], .error (.disconnected "peer closed")⟩ :=
      bind_error hhead
    rw [List.flatMap_nil, List.take_nil, recvFrames, hrun]
    rfl
  | obj :: rest, hobjs, k, picks, n, hn => by
    have hobj := hobjs obj List.mem_cons_self
    have hlen := length_frame json obj
    rw [List.flatMap_cons]
    by_cases hk : frameHeaderSize + (json.dumps obj).length ≤ k
    · -- the frame is complete
      have harrived : arrived json (obj :: rest) k =
          obj :: arrived json rest (k - (frameHeaderSize + (json.dumps obj).length)) := if_pos hk
      rw [harrived, ← hlen, List.length_cons] at hn
      obtain ⟨n, rfl⟩ := Nat.exists_eq_add_of_le' (Nat.lt_of_lt_of_le (Nat.succ_pos _) hn)
      have hcut : (frame json obj ++ rest.flatMap (frame json)).take k = frame json obj ++
          (rest.flatMap (frame json)).take (k - (frame json obj).length) := by
        rw [List.take_append, List.take_of_length_le (by omega)]
      obtain ⟨picks', hrun⟩ := recvFrame_whole (hjson obj) hobj
        ((rest.flatMap (frame json)).take (k - (frame json obj).length)) picks
      have ih := recvFrames_cut hjson (fun v hv => hobjs v (List.mem_cons_of_mem _ hv))
        (k - (frame json obj).length) picks' n (by omega)
      rw [hcut, recvFrames, hrun]
      dsimp only
      rw [ih, harrived, ← hlen]
    · have harrived : arrived json (obj :: rest) k = [] := if_neg hk
      obtain ⟨s', hrun⟩ := recvFrame_cut hobj (Nat.lt_of_not_le hk) picks
      rw [List.take_append_of_le_length (by omega), recvFrames, hrun, harrived]

theorem arrived_all (json : Json α) : ∀ objs : List α,
    arrived json objs (objs.flatMap (frame json)).length = objs
  | [] => rfl
  | obj :: rest => by
    rw [List.flatMap_cons, List.length_append, length_frame, arrived,
      if_pos (Nat.le_add_right _ _), Nat.add_sub_cancel_left, arrived_all json rest]

/-- The values that arrive are the first ones, as many as have complete frames. -/
theorem arrived_spec (json : Json α) : ∀ (objs : List α) (k : ℕ), ∃ j ≤ objs.length,
    arrived json objs k = objs.take j ∧ ((objs.take j).flatMap (frame json)).length ≤ k ∧
      (j < objs.length → k < ((objs.take (j + 1)).flatMap (frame json)).length)
  | [], k => ⟨0, le_rfl, rfl, Nat.zero_le k, fun h => absurd h (Nat.lt_irrefl 0)⟩
  | obj :: rest, k => by
    have hlen := length_frame json obj
    by_cases h : frameHeaderSize + (json.dumps obj).length ≤ k
    · obtain ⟨j, hj, harrived, hle, hlt⟩ := arrived_spec json rest
        (k - (frameHeaderSize + (json.dumps obj).length))
      refine ⟨j + 1, Nat.succ_le_succ hj, ?_, ?_, fun hj' => ?_⟩
      · rw [List.take_succ_cons, ← harrived]
        exact if_pos h
      · rw [List.take_succ_cons, List.flatMap_cons, List.length_append]
        omega
      · have := hlt (Nat.lt_of_succ_lt_succ hj')
        rw [List.take_succ_cons, List.flatMap_cons, List.length_append]
        omega
    · refine ⟨0, Nat.zero_le _, if_neg h, Nat.zero_le k, fun _ => ?_⟩
      rw [List.take_succ_cons, List.take_zero, List.flatMap_cons, List.flatMap_nil, List.append_nil]
      omega

/-- **Any chunking**: of the frames of some values, whatever sizes the chunks have, `recv_frame`
returns the values in order and then raises; and of the first `k` bytes it returns those whose frames
are complete, and then raises. -/
theorem frames_survive_chunks (hjson : ∀ v, json.loads (json.dumps v) = some v) {objs : List α}
    (hobjs : ∀ v ∈ objs, (json.dumps v).length ≤ maxFrameBytes) :
    ∃ stream, sendFrames json objs = .ok stream ∧ ∀ (picks : ℕ → ℕ) (n : ℕ),
      (objs.length < n → recvFrames json n ⟨stream, picks⟩ =
        (objs, some (.disconnected "peer closed"))) ∧
      ∀ k, (arrived json objs k).length < n → recvFrames json n ⟨stream.take k, picks⟩ =
        (arrived json objs k, some (.disconnected "peer closed")) := by
  refine ⟨_, sendFrames_eq hobjs, fun picks n => ?_⟩
  have hcut : ∀ k, (arrived json objs k).length < n →
      recvFrames json n ⟨(objs.flatMap (frame json)).take k, picks⟩ =
        (arrived json objs k, some (.disconnected "peer closed")) := by
    intro k hk
    obtain ⟨n, rfl⟩ := Nat.exists_eq_add_of_le' (Nat.lt_of_lt_of_le (Nat.succ_pos _) hk)
    exact recvFrames_cut hjson hobjs k picks n (by omega)
  refine ⟨fun hn => ?_, hcut⟩
  have hall := hcut (objs.flatMap (frame json)).length
  rw [arrived_all, List.take_length] at hall
  exact hall hn

end Frames

/-- JSON of the two truth values. -/
def jsonBool : Json Bool where
  dumps b := if b then [116, 114, 117, 101] else [102, 97, 108, 115, 101]
  loads data :=
    if data = [116, 114, 117, 101] then some true
    else if data = [102, 97, 108, 115, 101] then some false else none

/-- `true` and `false`, in chunks of up to three bytes. -/
theorem frames_survive_chunks_bool : ∃ stream, sendFrames jsonBool [true, false] = .ok stream ∧
    recvFrames jsonBool 3 ⟨stream, fun i => i % 4⟩ =
      ([true, false], some (.disconnected "peer closed")) ∧
    recvFrames jsonBool 3 ⟨stream.take 11, fun i => i % 4⟩ =
      ([true], some (.disconnected "peer closed")) := by
  have hjson : ∀ v, jsonBool.loads (jsonBool.dumps v) = some v := by decide
  have hobjs : ∀ v ∈ [true, false], (jsonBool.dumps v).length ≤ maxFrameBytes := by decide
  obtain ⟨stream, hstream, hall⟩ := frames_survive_chunks hjson hobjs
  obtain ⟨hwhole, hcut⟩ := hall (fun i => i % 4) 3
  exact ⟨stream, hstream, hwhole (by decide), hcut 11 (by decide)⟩

end Pylog.Net
