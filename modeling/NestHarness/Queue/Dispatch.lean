import NestHarness.Http.Exchange

/-!
# Jobs of the write queue

What `WriteQueueRegistry.dispatch` stores of a call and what its caller gets back.
-/

namespace NestHarness

/-- A finished job that BullMQ keeps: the arguments in its data, and its `returnvalue` or the status
and response in its `failedReason`. -/
structure JobRecord where
  name : String
  args : List Json
  result : Except (Nat × ErrorBody) Json

namespace WriteQueueRegistry

/-- What the worker throws for an exception of the method. -/
def serialize : Exn → Nat × ErrorBody
  | .http status response => (status, response)
  | .error message => (500, { message })

/-- The job of a call of the method `jobKey` with the given outcome. -/
def jobRecord (jobKey : String) (args : List Json) (outcome : Except Exn Json) : JobRecord where
  name := jobKey
  args
  result := outcome.mapError serialize

/-- The outcome `dispatch` hands to the caller. -/
def dispatched (outcome : Except Exn Json) : Except Exn Json :=
  outcome.mapError fun e => .http (serialize e).1 (serialize e).2

end WriteQueueRegistry

end NestHarness
