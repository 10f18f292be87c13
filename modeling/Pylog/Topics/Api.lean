import Pylog.Topics.Broker

/-!
# Pylog.Topics.Api — consuming over HTTP (api.py:84–97)

`GET /topics/<topic>/consume/<partition>?group=…&limit=…`: the messages behind the group's offset,
which is then moved to the last of them.  An exception is answered with status 400 and no messages.
-/

namespace Pylog.Topics

open Effect Effect.Handler

/-- A request as `do_GET` takes it apart; `.error` is the message of the `int()` that fails.  The
group is empty if there is none, the limit `100`. -/
structure ConsumeRequest where
  topic : String
  partition : Except String ℤ
  group : String := ""
  limit : Except String ℤ := .ok 100

def orValueError {α : Type} : Except String α → BrokerM α
  | .ok a => pure a
  | .error message => raise (.valueError message)

def orRaise {α : Type} : Except BrokerError α → BrokerM α
  | .ok a => pure a
  | .error e => raise e

namespace Broker

variable (groupFile : String → String) (os : Answers)

/-- The offset to start behind. -/
def afterOffset (group topic : String) (partition : ℤ) : BrokerM ℤ :=
  if group = "" then pure (-1)
  else do
    let g ← Broker.group groupFile os group
    pure (g.committed topic partition)

/-- `if group and msgs: broker.commit(…)`. -/
def commitLast (group topic : String) (partition : ℤ) (msgs : List Message) : BrokerM Unit :=
  match msgs.getLast? with
  | none => pure ()
  | some m => when (group ≠ "") (commit groupFile os group topic partition m.offset)

/-- The request, once its numbers are parsed. -/
def consumeFrom (group topic : String) (partition limit : ℤ) : BrokerM (List Message) := do
  let after ← afterOffset groupFile os group topic partition
  let b ← read
  let msgs ← orRaise (b.fetch topic partition after limit)
  commitLast groupFile os group topic partition msgs
  pure msgs

def consume (rq : ConsumeRequest) : BrokerM (List Message) := do
  let partition ← orValueError rq.partition
  let limit ← orValueError rq.limit
  consumeFrom groupFile os rq.group rq.topic partition limit

end Broker

/-- The messages of the answer; an exception is answered without any. -/
def answered : Except BrokerError (List Message) → List Message
  | .ok msgs => msgs
  | .error _ => []

end Pylog.Topics
