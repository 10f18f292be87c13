import Pylog.Base.Transition
import Pylog.Net.Frames

/-!
# Pylog.Net.Serve — the frame server (net.py:41–107)

A server is the object its handler works on and the connections, each with a thread of its own.  The
threads make their rounds in any order; a call of the handler is one step, and between two of them
the object may be changed from outside.

`serve_exact`: on every connection the handler gets the requests that arrive, each once and in their
order, and what the client reads are the answers to its own requests, in the same order.
-/

namespace Pylog.Net

open Raft (Bytes)
open Effect Effect.Handler Framing Transition

/-! ### `_serve_conn` -/

inductive Thread
  | serving
  /-- `recv_frame` raised; the socket is closed. -/
  | closed
  /-- The answer did not go out as a whole; the socket is closed. -/
  | broken
  deriving DecidableEq, Repr

/-- A connection: what its client sends, how many bytes of that arrive, what the server wrote, and
for each `sendall` to come, after how many bytes it fails if it does. -/
structure Conn (α : Type) where
  requests : List α
  cut : ℕ
  socket : Socket
  sent : Bytes := []
  fails : ℕ → Option ℕ
  thread : Thread := .serving

/-- A call of the handler. -/
structure Call (α σ : Type) where
  conn : ℕ
  request : α
  before : σ
  answer : α
  after : σ

structure FrameServer (α σ : Type) where
  app : σ
  conns : List (Conn α) := []
  /-- The calls of the handler so far. -/
  calls : List (Call α σ) := []

/-- `sock.sendall(data)`. -/
def Conn.sendall {α : Type} (c : Conn α) (data : Bytes) : Conn α :=
  let c' := { c with fails := fun i => c.fails (i + 1) }
  match c.fails 0 with
  | none => { c' with sent := c.sent ++ data }
  | some k => { c' with sent := c.sent ++ data.take k, thread := .broken }

section Code

variable {α σ ε : Type} (json : Json α) (handler : α → Handler σ Empty ε α) (error : ε → α)

/-- The object and the answer after a request; an exception has an answer too. -/
def answered (req : α) (app : σ) : σ × α :=
  let r := handler req app
  (r.state, match r.result with
    | .ok resp => resp
    | .error e => error e)

/-- `send_frame(conn, resp)`; an answer that cannot be packed ends the thread too. -/
def Conn.reply (c : Conn α) (resp : α) : Conn α :=
  match sendFrame json resp with
  | .ok data => c.sendall data
  | .error _ => { c with thread := .broken }

/-- A round of the loop of `_serve_conn`. -/
def serveOnce (i : ℕ) (c : Conn α) (s : FrameServer α σ) : FrameServer α σ :=
  let r := recvFrame json c.socket
  let c := { c with socket := r.state }
  match r.result with
  | .error _ => { s with conns := s.conns.set i { c with thread := .closed } }
  | .ok req =>
    let a := answered handler error req s.app
    { app := a.1, conns := s.conns.set i (c.reply json a.2),
      calls := s.calls ++ [⟨i, req, s.app, a.2, a.1⟩] }

inductive ServerEvent (α σ : Type)
  /-- A client connects that sends these requests, of which `cut` bytes arrive. -/
  | accept (requests : List α) (cut : ℕ) (picks : ℕ → ℕ) (fails : ℕ → Option ℕ)
  /-- Thread `i` makes a round. -/
  | turn (i : ℕ)
  /-- The object is changed, not by the server. -/
  | outside (app : σ)

namespace FrameServer

def next (s : FrameServer α σ) : ServerEvent α σ → FrameServer α σ
  | .accept requests cut picks fails =>
    { s with conns := s.conns ++
        [{ requests, cut, socket := ⟨(requests.flatMap (frame json)).take cut, picks⟩, fails }] }
  | .turn i =>
    match s.conns[i]? with
    | some c => if c.thread = .serving then serveOnce json handler error i c s else s
    | none => s
  | .outside app => { s with app }

/-- Requests that `send_frame` can pack; changes from outside are of one kind. -/
def Valid (outside : σ → σ → Prop) (s : FrameServer α σ) : ServerEvent α σ → Prop
  | .accept requests _ _ _ => ∀ v ∈ requests, (json.dumps v).length < 2 ^ 32
  | .turn _ => True
  | .outside app => outside s.app app

instance (outside : σ → σ → Prop) [DecidableRel outside] (s : FrameServer α σ) :
    ∀ e, Decidable (Valid json outside s e)
  | .accept requests _ _ _ =>
    inferInstanceAs (Decidable (∀ v ∈ requests, (json.dumps v).length < 2 ^ 32))
  | .turn _ => inferInstanceAs (Decidable True)
  | .outside app => inferInstanceAs (Decidable (outside s.app app))

def callsOn (s : FrameServer α σ) (i : ℕ) : List (Call α σ) := s.calls.filter fun c => c.conn = i

end FrameServer

/-- The requests whose frames arrive complete, up to the first that is too long. -/
def taken : List α → ℕ → List α
  | [], _ => []
  | obj :: rest, k =>
    let size := frameHeaderSize + (json.dumps obj).length
    if size ≤ k ∧ (json.dumps obj).length ≤ maxFrameBytes then obj :: taken rest (k - size) else []

/-- The object goes from `app` to `app'` by these calls, and by changes from outside. -/
def Linked (outside : σ → σ → Prop) : σ → List (Call α σ) → σ → Prop
  | app, [], app' => Relation.ReflTransGen outside app app'
  | app, c :: cs, app' => Relation.ReflTransGen outside app c.before ∧
      (c.after, c.answer) = answered handler error c.request c.before ∧ Linked outside c.after cs app'

end Code

/-! ### One round -/

section Proofs

variable {α σ ε : Type} {json : Json α} {handler : α → Handler σ Empty ε α} {error : ε → α}
  {outside : σ → σ → Prop}

/-- A frame that is too long is refused, wherever the stream breaks. -/
theorem recvFrame_long {obj : α} (hword : (json.dumps obj).length < 2 ^ 32)
    (hlong : maxFrameBytes < (json.dumps obj).length) (rest : Bytes) (k : ℕ) (picks : ℕ → ℕ) :
    ∃ s' e, recvFrame json ⟨(frame json obj ++ rest).take k, picks⟩ = ⟨s', [], .error e⟩ := by
  have hsize : (word frameHeaderSize (json.dumps obj).length).length = frameHeaderSize :=
    length_word ..
  have hlen := length_frame json obj
  have hlength : ((frame json obj ++ rest).take k).length =
      min k ((frame json obj).length + rest.length) := by
    rw [List.length_take, List.length_append]
  unfold recvFrame
  rcases Nat.lt_or_ge k frameHeaderSize with hlt | hge
  · obtain ⟨s', hhead⟩ := recvExact_short (s := ⟨(frame json obj ++ rest).take k, picks⟩)
      (n := frameHeaderSize) (by dsimp only; omega)
    exact ⟨s', _, bind_error hhead⟩
  · obtain ⟨picks', hhead⟩ := recvExact_run (s := ⟨(frame json obj ++ rest).take k, picks⟩)
      (n := frameHeaderSize) (by dsimp only; omega)
    dsimp only at hhead
    rw [List.take_take, Nat.min_eq_left hge, frame, List.append_assoc, List.take_left' hsize] at hhead
    rw [frame, List.append_assoc, bind_eq hhead, number_word (Nat.lt_of_lt_of_le hword (by decide)),
      if_pos hlong]
    exact ⟨_, _, rfl⟩

/-- What `recv_frame` makes of the rest of a stream of frames. -/
theorem recvFrame_next (hjson : ∀ v, json.loads (json.dumps v) = some v) (objs : List α)
    (hobjs : ∀ v ∈ objs, (json.dumps v).length < 2 ^ 32) (k : ℕ) (picks : ℕ → ℕ) :
    (∃ obj rest k' picks', objs = obj :: rest ∧ taken json objs k = obj :: taken json rest k' ∧
      recvFrame json ⟨(objs.flatMap (frame json)).take k, picks⟩ =
        ⟨⟨(rest.flatMap (frame json)).take k', picks'⟩, [], .ok obj⟩) ∨
    taken json objs k = [] ∧ ∃ s' e,
      recvFrame json ⟨(objs.flatMap (frame json)).take k, picks⟩ = ⟨s', [], .error e⟩ := by
  cases objs with
  | nil =>
    obtain ⟨s', hhead⟩ := recvExact_short (s := ⟨[], picks⟩)
      (show ([] : Bytes).length < frameHeaderSize by decide)
    refine .inr ⟨rfl, s', .disconnected "peer closed", ?_⟩
    rw [List.flatMap_nil, List.take_nil]
    exact bind_error hhead
  | cons obj rest =>
    have hlen := length_frame json obj
    rw [List.flatMap_cons]
    by_cases hfits : (json.dumps obj).length ≤ maxFrameBytes
    · by_cases hk : frameHeaderSize + (json.dumps obj).length ≤ k
      · left
        obtain ⟨picks', hrun⟩ := recvFrame_whole (hjson obj) hfits
          ((rest.flatMap (frame json)).take (k - (frame json obj).length)) picks
        refine ⟨obj, rest, k - (frame json obj).length, picks', rfl, ?_, ?_⟩
        · rw [hlen]
          exact if_pos ⟨hk, hfits⟩
        · rw [List.take_append, List.take_of_length_le (by omega), hrun]
      · right
        obtain ⟨s', hrun⟩ := recvFrame_cut hfits (Nat.lt_of_not_le hk) picks
        refine ⟨if_neg fun h => hk h.1, s', .disconnected "peer closed", ?_⟩
        rw [List.take_append_of_le_length (by omega)]
        exact hrun
    · right
      obtain ⟨s', e, hrun⟩ := recvFrame_long (hobjs obj List.mem_cons_self) (Nat.lt_of_not_le hfits)
        (rest.flatMap (frame json)) k picks
      exact ⟨if_neg fun h => hfits h.2, s', e, hrun⟩

/-- What holds of a connection on which the handler got these calls. -/
structure Conn.Ok (json : Json α) (c : Conn α) (calls : List (Call α σ)) : Prop where
  pending : c.thread = .serving → ∃ rest k picks,
    c.socket = ⟨(rest.flatMap (frame json)).take k, picks⟩ ∧
      (∀ v ∈ rest, (json.dumps v).length < 2 ^ 32) ∧
      taken json c.requests c.cut = calls.map Call.request ++ taken json rest k
  closed : c.thread = .closed → calls.map Call.request = taken json c.requests c.cut
  handled : calls.map Call.request <+: taken json c.requests c.cut
  sent : c.thread ≠ .broken → c.sent = (calls.map Call.answer).flatMap (frame json)
  part : c.sent <+: (calls.map Call.answer).flatMap (frame json)

/-- The answer goes out as a whole, or the thread ends. -/
theorem Conn.reply_spec (json : Json α) (c : Conn α) (resp : α) :
    (c.reply json resp).requests = c.requests ∧ (c.reply json resp).cut = c.cut ∧
      (c.reply json resp).socket = c.socket ∧
      ((c.reply json resp).thread = c.thread ∧
          (c.reply json resp).sent = c.sent ++ frame json resp ∨
        (c.reply json resp).thread = .broken ∧
          ∃ k, (c.reply json resp).sent = c.sent ++ (frame json resp).take k) := by
  unfold Conn.reply sendFrame
  dsimp only
  split
  · rename_i data hdata
    split_ifs at hdata
    obtain rfl := Except.ok.inj hdata
    unfold Conn.sendall
    dsimp only
    split
    · exact ⟨rfl, rfl, rfl, .inl ⟨rfl, rfl⟩⟩
    · rename_i k _
      exact ⟨rfl, rfl, rfl, .inr ⟨rfl, k, rfl⟩⟩
  · refine ⟨rfl, rfl, rfl, .inr ⟨rfl, 0, ?_⟩⟩
    rw [List.take_zero, List.append_nil]

theorem Conn.reply_ok {c : Conn α} {calls : List (Call α σ)} {rest : List α} {k : ℕ}
    {picks : ℕ → ℕ} (hsocket : c.socket = ⟨(rest.flatMap (frame json)).take k, picks⟩)
    (hrest : ∀ v ∈ rest, (json.dumps v).length < 2 ^ 32) (call : Call α σ)
    (htaken : taken json c.requests c.cut =
      (calls ++ [call]).map Call.request ++ taken json rest k)
    (hserving : c.thread = .serving)
    (hsent : c.sent = (calls.map Call.answer).flatMap (frame json)) :
    (c.reply json call.answer).Ok json (calls ++ [call]) := by
  have hanswers : ((calls ++ [call]).map Call.answer).flatMap (frame json) =
      c.sent ++ frame json call.answer := by
    rw [hsent, List.map_append, List.flatMap_append, List.map_singleton, List.flatMap_singleton]
  obtain ⟨hreq, hcut, hsock, hcase⟩ := c.reply_spec json call.answer
  have hhandled : (calls ++ [call]).map Call.request <+:
      taken json (c.reply json call.answer).requests (c.reply json call.answer).cut := by
    rw [hreq, hcut, htaken]
    exact List.prefix_append _ _
  rcases hcase with ⟨hthread, hdata⟩ | ⟨hthread, n, hdata⟩
  · refine ⟨fun _ => ⟨rest, k, picks, hsock.trans hsocket, hrest, ?_⟩, fun h => ?_, hhandled,
      fun _ => hdata.trans hanswers.symm, ?_⟩
    · rw [hreq, hcut, htaken]
    · rw [hthread, hserving] at h
      cases h
    · exact ⟨[], by rw [List.append_nil, hdata, hanswers]⟩
  · refine ⟨fun h => ?_, fun h => ?_, hhandled, fun h => absurd hthread h, ?_⟩
    · rw [hthread] at h
      cases h
    · rw [hthread] at h
      cases h
    · rw [hdata, hanswers]
      exact (List.prefix_append_right_inj _).mpr (List.take_prefix n _)

/-- A round handles the next request that arrives, or ends the thread since there is none. -/
theorem serveOnce_spec (hjson : ∀ v, json.loads (json.dumps v) = some v) {c : Conn α}
    {calls : List (Call α σ)} (hc : c.Ok json calls) (hserving : c.thread = .serving) (i : ℕ)
    (s : FrameServer α σ) :
    (∃ c' call, serveOnce json handler error i c s =
        { app := call.after, conns := s.conns.set i c', calls := s.calls ++ [call] } ∧
      call.conn = i ∧ call.before = s.app ∧
      (call.after, call.answer) = answered handler error call.request s.app ∧
      c'.Ok json (calls ++ [call]) ∧ (c'.requests, c'.cut) = (c.requests, c.cut)) ∨
    ∃ c', serveOnce json handler error i c s = { s with conns := s.conns.set i c' } ∧
      c'.Ok json calls ∧ c'.thread = .closed ∧ (c'.requests, c'.cut) = (c.requests, c.cut) := by
  obtain ⟨rest, k, picks, hsocket, hrest, htaken⟩ := hc.pending hserving
  have hsent := hc.sent (by rw [hserving]; decide)
  rcases recvFrame_next hjson rest hrest k picks with
    ⟨obj, rest', k', picks', rfl, hhead, hrun⟩ | ⟨hnone, s', e, hrun⟩
  · left
    unfold serveOnce
    rw [hsocket, hrun]
    rw [hhead] at htaken
    generalize ha : answered handler error obj s.app = a
    obtain ⟨c₁, hc₁⟩ : ∃ c₁ : Conn α,
      c₁ = { c with socket := ⟨(rest'.flatMap (frame json)).take k', picks'⟩ } := ⟨_, rfl⟩
    obtain ⟨hreq, hcut, -⟩ := c₁.reply_spec json a.2
    have hsocket₁ : c₁.socket = ⟨(rest'.flatMap (frame json)).take k', picks'⟩ := by rw [hc₁]
    refine ⟨c₁.reply json a.2, ⟨i, obj, s.app, a.2, a.1⟩, ?_, rfl, rfl, ha.symm,
      Conn.reply_ok hsocket₁ (fun v hv => hrest v (List.mem_cons_of_mem _ hv))
        ⟨i, obj, s.app, a.2, a.1⟩ ?_ ?_ ?_, ?_⟩
    · rw [hc₁, ← ha]
    · rw [hc₁, htaken, List.map_append, List.append_assoc]
      rfl
    · rw [hc₁]
      exact hserving
    · rw [hc₁]
      exact hsent
    · rw [hreq, hcut, hc₁]
  · right
    unfold serveOnce
    rw [hsocket, hrun]
    rw [hnone, List.append_nil] at htaken
    exact ⟨{ c with socket := s', thread := .closed }, rfl,
      ⟨fun h => (by cases h), fun _ => htaken.symm, hc.handled, fun _ => hsent, hc.part⟩, rfl, rfl⟩

/-! ### Every run -/

/-- What holds of a server in every run. -/
structure FrameServer.Exact (json : Json α) (handler : α → Handler σ Empty ε α) (error : ε → α)
    (outside : σ → σ → Prop) (app₀ : σ) (s : FrameServer α σ) : Prop where
  conns : ∀ i (c : Conn α), s.conns[i]? = some c → c.Ok json (s.callsOn i)
  known : ∀ call ∈ s.calls, call.conn < s.conns.length
  linked : Linked handler error outside app₀ s.calls s.app

theorem linked_concat {app' : σ} {call : Call α σ} : ∀ {calls : List (Call α σ)} {app : σ},
    Linked handler error outside app calls call.before →
    (call.after, call.answer) = answered handler error call.request call.before →
    Relation.ReflTransGen outside call.after app' →
    Linked handler error outside app (calls ++ [call]) app'
  | [], _, h, hcall, h' => ⟨h, hcall, h'⟩
  | _ :: _, _, h, hcall, h' => ⟨h.1, h.2.1, linked_concat h.2.2 hcall h'⟩

theorem linked_outside {app' app'' : σ} (h' : outside app' app'') : ∀ {calls : List (Call α σ)}
    {app : σ}, Linked handler error outside app calls app' →
    Linked handler error outside app calls app''
  | [], _, h => Relation.ReflTransGen.tail h h'
  | _ :: _, _, h => ⟨h.1, h.2.1, linked_outside h' h.2.2⟩

theorem callsOn_concat {calls : List (Call α σ)} {call : Call α σ} (i : ℕ) :
    (calls ++ [call]).filter (fun c => c.conn = i) =
      (calls.filter fun c => c.conn = i) ++ if call.conn = i then [call] else [] := by
  rw [List.filter_append]
  congr 1
  by_cases h : call.conn = i
  · simp [h]
  · simp [h]

theorem FrameServer.Exact.accept {app₀ : σ} {s : FrameServer α σ}
    (h : s.Exact json handler error outside app₀) {requests : List α}
    (hwords : ∀ v ∈ requests, (json.dumps v).length < 2 ^ 32) (cut : ℕ) (picks : ℕ → ℕ)
    (fails : ℕ → Option ℕ) :
    (s.next json handler error (.accept requests cut picks fails)).Exact json handler error outside
      app₀ := by
  refine ⟨fun i c hc => ?_, fun call hcall => ?_, h.linked⟩
  · rcases Nat.lt_or_ge i s.conns.length with hi | hi
    · refine h.conns i c ?_
      rwa [← List.getElem?_append_left hi]
    · have hnone : s.callsOn i = [] := by
        refine List.filter_eq_nil_iff.mpr fun call hcall heq => ?_
        have := h.known call hcall
        have := of_decide_eq_true heq
        omega
      have hc' : (s.conns ++ [({ requests, cut, socket :=
          ⟨(requests.flatMap (frame json)).take cut, picks⟩, fails } : Conn α)])[i]? = some c := hc
      rw [List.getElem?_append_right hi, List.getElem?_singleton] at hc'
      split_ifs at hc'
      obtain rfl := Option.some.inj hc'
      show Conn.Ok json _ (s.callsOn i)
      rw [hnone]
      exact ⟨fun _ => ⟨requests, cut, picks, rfl, hwords, rfl⟩, fun h => (by cases h),
        List.nil_prefix, fun _ => rfl, List.nil_prefix⟩
  · show call.conn < (s.conns ++ _).length
    rw [List.length_append]
    exact Nat.lt_of_lt_of_le (h.known call hcall) (Nat.le_add_right _ _)

theorem FrameServer.Exact.turn (hjson : ∀ v, json.loads (json.dumps v) = some v) {app₀ : σ}
    {s : FrameServer α σ} (h : s.Exact json handler error outside app₀) {i : ℕ} {c : Conn α}
    (hc : s.conns[i]? = some c) (hserving : c.thread = .serving) :
    (serveOnce json handler error i c s).Exact json handler error outside app₀ := by
  obtain ⟨hi, -⟩ := List.getElem?_eq_some_iff.mp hc
  rcases serveOnce_spec hjson (h.conns i c hc) hserving i s with
    ⟨c', call, hrun, hconn, hbefore, hanswer, hok, -⟩ | ⟨c', hrun, hok, -⟩
  · rw [hrun]
    refine ⟨fun j d hd => ?_, fun call' hcall => ?_, ?_⟩
    · have hd' : (s.conns.set i c')[j]? = some d := hd
      show d.Ok json ((s.calls ++ [call]).filter fun c => c.conn = j)
      rw [callsOn_concat, hconn]
      by_cases hij : i = j
      · subst hij
        rw [List.getElem?_set_self hi] at hd'
        obtain rfl := Option.some.inj hd'
        rw [if_pos rfl]
        exact hok
      · rw [List.getElem?_set_ne hij] at hd'
        rw [if_neg hij, List.append_nil]
        exact h.conns j d hd'
    · show call'.conn < (s.conns.set i c').length
      rw [List.length_set]
      rcases List.mem_append.mp hcall with hcall | hcall
      · exact h.known call' hcall
      · rw [List.mem_singleton.mp hcall, hconn]
        exact hi
    · refine linked_concat ?_ ?_ .refl
      · rw [hbefore]
        exact h.linked
      · rw [hbefore]
        exact hanswer
  · rw [hrun]
    refine ⟨fun j d hd => ?_, fun call hcall => ?_, h.linked⟩
    · have hd' : (s.conns.set i c')[j]? = some d := hd
      show d.Ok json (s.callsOn j)
      by_cases hij : i = j
      · subst hij
        rw [List.getElem?_set_self hi] at hd'
        obtain rfl := Option.some.inj hd'
        exact hok
      · rw [List.getElem?_set_ne hij] at hd'
        exact h.conns j d hd'
    · show call.conn < (s.conns.set i c').length
      rw [List.length_set]
      exact h.known call hcall

theorem exact_of_reach (hjson : ∀ v, json.loads (json.dumps v) = some v) {app₀ : σ}
    {s : FrameServer α σ} (h : Reach (FrameServer.next json handler error)
      (FrameServer.Valid json outside) { app := app₀ } s) :
    s.Exact json handler error outside app₀ := by
  refine h.inv (FrameServer.Exact json handler error outside app₀)
    ⟨?_, ?_, ?_⟩ ?_
  · intro i c hc
    cases hc
  · intro call hcall
    cases hcall
  · exact Relation.ReflTransGen.refl
  · rintro s e - hs he
    cases e with
    | accept requests cut picks fails => exact hs.accept he cut picks fails
    | turn i =>
      unfold FrameServer.next
      dsimp only
      split
      · rename_i c hc
        split_ifs with hserving
        · exact hs.turn hjson hc hserving
        · exact hs
      · exact hs
    | outside app => exact ⟨hs.conns, hs.known, linked_outside he hs.linked⟩

/-- What a client can rely on, of a connection on which the handler got these calls. -/
structure Conn.Served (json : Json α) (c : Conn α) (calls : List (Call α σ)) : Prop where
  /-- The handler gets the requests that arrive, in their order and each once, -/
  handled : calls.map Call.request <+: taken json c.requests c.cut
  /-- all of them before the thread ends, unless a send failed. -/
  closed : c.thread = .closed → calls.map Call.request = taken json c.requests c.cut
  /-- The client reads the answers to its own requests, in their order. -/
  answers : (∀ call ∈ calls, (json.dumps call.answer).length ≤ maxFrameBytes) → ∀ k picks, ∃ j,
    (∀ n, j < n → recvFrames json n ⟨c.sent.take k, picks⟩ =
      ((calls.map Call.answer).take j, some (.disconnected "peer closed"))) ∧
    (c.thread ≠ .broken → c.sent.length ≤ k → j = calls.length)

theorem Conn.Ok.served (hjson : ∀ v, json.loads (json.dumps v) = some v) {c : Conn α}
    {calls : List (Call α σ)} (h : c.Ok json calls) : c.Served json calls := by
  refine ⟨h.handled, h.closed, fun hfits k picks => ?_⟩
  obtain ⟨m, hm⟩ : ∃ m, c.sent = ((calls.map Call.answer).flatMap (frame json)).take m :=
    ⟨_, List.prefix_iff_eq_take.mp h.part⟩
  have hanswers : ∀ v ∈ calls.map Call.answer, (json.dumps v).length ≤ maxFrameBytes := by
    intro v hv
    obtain ⟨call, hcall, rfl⟩ := List.mem_map.mp hv
    exact hfits call hcall
  by_cases hall : c.thread ≠ .broken ∧ c.sent.length ≤ k
  · refine ⟨calls.length, fun n hn => ?_, fun _ _ => rfl⟩
    obtain ⟨n, rfl⟩ := Nat.exists_eq_add_of_le' (Nat.lt_of_le_of_lt (Nat.zero_le _) hn)
    have hcut := recvFrames_cut hjson hanswers
      ((calls.map Call.answer).flatMap (frame json)).length picks n
    rw [arrived_all, List.take_length, List.length_map] at hcut
    rw [List.take_of_length_le hall.2, h.sent hall.1, hcut (by omega), List.take_of_length_le]
    rw [List.length_map]
  · obtain ⟨j, hj, harrived, -⟩ := arrived_spec json (calls.map Call.answer) (min k m)
    refine ⟨j, fun n hn => ?_, fun h1 h2 => absurd ⟨h1, h2⟩ hall⟩
    obtain ⟨n, rfl⟩ := Nat.exists_eq_add_of_le' (Nat.lt_of_le_of_lt (Nat.zero_le _) hn)
    have hcut := recvFrames_cut hjson hanswers (min k m) picks n
    rw [harrived, List.length_take] at hcut
    rw [hm, List.take_take, hcut (by omega)]

theorem taken_fits : ∀ (objs : List α) (k : ℕ), ∀ v ∈ taken json objs k,
    (json.dumps v).length ≤ maxFrameBytes
  | [], _, v, hv => by cases hv
  | obj :: rest, k, v, hv => by
    unfold taken at hv
    dsimp only at hv
    split_ifs at hv with h
    · rcases List.mem_cons.mp hv with rfl | hv
      · exact h.2
      · exact taken_fits rest _ v hv
    · cases hv

theorem linked_answered : ∀ {calls : List (Call α σ)} {app app' : σ},
    Linked handler error outside app calls app' → ∀ call ∈ calls,
      (call.after, call.answer) = answered handler error call.request call.before
  | [], _, _, _, call, hcall => by cases hcall
  | _ :: _, _, _, ⟨_, hanswer, hlinked⟩, call, hcall => by
    rcases List.mem_cons.mp hcall with rfl | hcall
    · exact hanswer
    · exact linked_answered hlinked call hcall

/-- The handler gets no request that was too long to be received. -/
theorem FrameServer.Exact.request_fits {app₀ : σ} {s : FrameServer α σ}
    (h : s.Exact json handler error outside app₀) :
    ∀ call ∈ s.calls, (json.dumps call.request).length ≤ maxFrameBytes := by
  intro call hcall
  obtain ⟨c, hc⟩ : ∃ c, s.conns[call.conn]? = some c :=
    ⟨_, List.getElem?_eq_getElem (h.known call hcall)⟩
  have hmem : call ∈ s.callsOn call.conn := List.mem_filter.mpr ⟨hcall, decide_eq_true rfl⟩
  exact taken_fits c.requests c.cut call.request
    ((h.conns call.conn c hc).handled.subset (List.mem_map_of_mem hmem))

/-- What calls and changes from outside keep holds before every call, and what they only add to
grows from call to call. -/
theorem linked_keeps {I : σ → Prop} {R : σ → σ → Prop} (hrefl : ∀ app, R app app)
    (htrans : ∀ {a b c}, R a b → R b c → R a c)
    (hcall : ∀ req app, (json.dumps req).length ≤ maxFrameBytes → I app →
      I (answered handler error req app).1 ∧ R app (answered handler error req app).1)
    (hout : ∀ app app', I app → outside app app' → I app' ∧ R app app') :
    ∀ {calls : List (Call α σ)} {app app' : σ}, I app → Linked handler error outside app calls app' →
      (∀ call ∈ calls, (json.dumps call.request).length ≤ maxFrameBytes) →
      I app' ∧ R app app' ∧ (∀ call ∈ calls, I call.before ∧ R app call.before ∧ R call.after app') ∧
        calls.Pairwise fun a b => R a.after b.before := by
  have hmany : ∀ {app app' : σ}, I app → Relation.ReflTransGen outside app app' →
      I app' ∧ R app app' := by
    intro app app' h hgen
    induction hgen with
    | refl => exact ⟨h, hrefl app⟩
    | tail _ hstep ih =>
      obtain ⟨h', hR⟩ := hout _ _ ih.1 hstep
      exact ⟨h', htrans ih.2 hR⟩
  intro calls
  induction calls with
  | nil =>
    intro app app' h hlinked _
    obtain ⟨h', hR⟩ := hmany h hlinked
    exact ⟨h', hR, by simp, .nil⟩
  | cons call calls ih =>
    rintro app app' h ⟨hgen, hanswer, hlinked⟩ hfits
    obtain ⟨hbefore, hR⟩ := hmany h hgen
    have hafter := hcall call.request call.before (hfits call List.mem_cons_self) hbefore
    rw [← hanswer] at hafter
    obtain ⟨h', hR', hall, hpair⟩ := ih hafter.1 hlinked
      fun c hc => hfits c (List.mem_cons_of_mem _ hc)
    have hstep := htrans hR hafter.2
    refine ⟨h', htrans hstep hR', ?_, List.pairwise_cons.mpr ⟨fun c hc => (hall c hc).2.1, hpair⟩⟩
    intro c hc
    rcases List.mem_cons.mp hc with rfl | hc
    · exact ⟨hbefore, hR, hR'⟩
    · exact ⟨(hall c hc).1, htrans hstep (hall c hc).2.1, (hall c hc).2.2⟩

end Proofs

/-- Negation as a service; it counts its calls and refuses the third. -/
def negate (b : Bool) : Handler ℕ Empty Unit Bool := fun n =>
  if n = 2 then ⟨n + 1, [], .error ()⟩ else ⟨n + 1, [], .ok !b⟩

/-- Two clients; the second breaks off inside its second request. -/
def twoClients : List (ServerEvent Bool ℕ) :=
  [.accept [true, false] 100 (fun i => i % 3) fun _ => none,
    .accept [false, false] 12 (fun _ => 7) fun _ => none,
    .turn 1, .turn 0, .outside 2, .turn 1, .turn 0, .turn 0]

end Pylog.Net
