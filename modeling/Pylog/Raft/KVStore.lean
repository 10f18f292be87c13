import Pylog.Raft.Node

/-!
# Pylog.Raft.KVStore — the key/value state machine (statemachine.py)

`apply` counts an operation before it decodes the payload, so a payload that is no UTF-8 raises with
the count already up.  What `apply` returns is not modelled: a node hands it to `on_apply` only.
-/

namespace Pylog.Raft

/-- `bytes(payload).decode("utf-8")`, as its characters; `none` when it raises. -/
def decodeUtf8 (payload : Bytes) : Option (List Char) :=
  (ByteArray.utf8Decode? ⟨payload.toArray⟩).map Array.toList

structure KVStore where
  data : Dict (List Char) (List Char) := fun _ => none
  ops : ℕ := 0

namespace KVStore

/-- `apply`: `key=value` sets a key, anything else is a read. -/
def apply (s : KVStore) (payload : Bytes) : KVStore × Bool :=
  match decodeUtf8 payload with
  | none => ({ s with ops := s.ops + 1 }, false)
  | some text =>
    match text.span (· ≠ '=') with
    | (_, []) => ({ s with ops := s.ops + 1 }, true)
    | (key, _ :: value) =>
      ({ data := Function.update s.data key (some value), ops := s.ops + 1 }, true)

/-- Every call counts. -/
theorem apply_ops (s : KVStore) (payload : Bytes) : (s.apply payload).1.ops = s.ops + 1 := by
  unfold apply
  split
  · rfl
  · split <;> rfl

/-- A payload is accepted iff it is UTF-8. -/
theorem apply_accepts (s : KVStore) (payload : Bytes) :
    (s.apply payload).2 = (decodeUtf8 payload).isSome := by
  unfold apply
  cases decodeUtf8 payload with
  | none => rfl
  | some text =>
    dsimp only
    split <;> rfl

end KVStore

/-- The state machine of a server: snapshots hold the keys and the count. -/
def kvStore : StateMachine KVStore KVStore where
  init := {}
  apply := KVStore.apply
  snapshot := id
  restore := id

/-! ### State machines and what they were handed -/

namespace StateMachine

variable {σ δ : Type} (sm : StateMachine σ δ)

/-- The state after a list of payloads. -/
def fed (calls : List Bytes) : σ := calls.foldl (fun s payload => (sm.apply s payload).1) sm.init

theorem fed_concat (calls : List Bytes) (payload : Bytes) :
    sm.fed (calls ++ [payload]) = (sm.apply (sm.fed calls) payload).1 := by
  simp [fed, List.foldl_append]

/-- The state machine with the list of the payloads handed to `apply` since it was made, whether it
raised or not. -/
def recorded : StateMachine (σ × List Bytes) δ where
  init := (sm.init, [])
  apply s payload := (((sm.apply s.1 payload).1, s.2 ++ [payload]), (sm.apply s.1 payload).2)
  snapshot s := sm.snapshot s.1
  restore d := (sm.restore d, [])

theorem recorded_fed (calls : List Bytes) : sm.recorded.fed calls = (sm.fed calls, calls) := by
  induction calls using List.reverseRecOn with
  | nil => rfl
  | append_singleton calls payload ih =>
    rw [fed_concat, fed_concat, ih]
    rfl

end StateMachine

theorem kvStore_ops (calls : List Bytes) : (kvStore.fed calls).ops = calls.length := by
  induction calls using List.reverseRecOn with
  | nil => rfl
  | append_singleton calls payload ih =>
    rw [StateMachine.fed_concat, List.length_append, List.length_singleton, ← ih]
    exact KVStore.apply_ops _ payload

end Pylog.Raft
