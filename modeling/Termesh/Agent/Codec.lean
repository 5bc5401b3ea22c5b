import Termesh.Agent.Json
import Termesh.Core.Trim

/-!
# JSON-RPC messages on the wire

A message as a JSON object and back, and the framing of the agent: one object a line.

* `Message.toValue`, `Message.ofValue`: the object of a message, and the message of an object;
* `Message.encode`, `Message.decode`: the line of a message, and the message of a line;
* **`ofValue_method`**: an object with a method is a request exactly when its id is a non-negative
  integer.
-/

namespace Termesh

namespace Value

/-- A number that fits a signed 64-bit integer. -/
def asI64 : Value → Option Int
  | number (.posInt n) => if n < 2 ^ 63 then some n else none
  | number (.negInt n) => some n
  | _ => none

/-- An id as the messages carry it. -/
def ofId (id : ℕ) : Value := number (.posInt id)

/-- A number for a signed integer. -/
def ofInt (n : Int) : Value :=
  match n with
  | .ofNat n => number (.posInt n)
  | .negSucc n => number (.negInt (.negSucc n))

end Value

/-- Why a line or an object is no message. -/
inductive DecodeError where
  | notJson (line : String)
  | malformed (text : String)
deriving DecidableEq, Repr

namespace Message

/-- The object of a message. -/
def toValue : Message → Value
  | request id method params => .object [("id", .ofId id), ("jsonrpc", .string "2.0"),
      ("method", .string method), ("params", params)]
  | response id result =>
    .object [("id", .ofId id), ("jsonrpc", .string "2.0"), ("result", result)]
  | error id code message => .object [("error", .object
      [("code", .ofInt code), ("message", .string message)]), ("id", .ofId id),
      ("jsonrpc", .string "2.0")]
  | notification method params => .object [("jsonrpc", .string "2.0"), ("method", .string method),
      ("params", params)]

/-- The message of an object, if it is one. -/
def ofValue (v : Value) : Option Message :=
  let params := Value.orNull (v.get "params")
  match (v.get "id").bind Value.asU64, v.getStr "method" with
  | some id, some method => some (request id method params)
  | none, some method => some (notification method params)
  | some id, none =>
    match v.get "error" with
    | some e => some (error id (((e.get "code").bind Value.asI64).getD 0)
        ((e.getStr "message").getD "unknown error"))
    | none => some (response id (Value.orNull (v.get "result")))
  | none, none => none

/-- Serialise to a single line. How a value is written is the JSON crate's. -/
def encode (print : Value → String) (m : Message) : String := print m.toValue ++ "\n"

/-- Parse one line. -/
def decode (parse : String → Except String Value) (line : String) : Except DecodeError Message :=
  let line := trim line
  if line = "" then .error (.notJson "")
  else
    match parse line with
    | .error _ => .error (.notJson line)
    | .ok v =>
      match ofValue v with
      | some m => .ok m
      | none => .error (.malformed line)

theorem toValue_get_id {m : Message} {id : ℕ} (h : m.answers = some id) :
    m.toValue.get "id" = some (.ofId id) := by
  cases m <;> cases h <;> rfl

/-- **An object with a method is a request exactly when its id is a non-negative integer.** -/
theorem ofValue_method {v : Value} {method : String} (h : v.getStr "method" = some method) :
    ofValue v = some (match (v.get "id").bind Value.asU64 with
      | some id => request id method (Value.orNull (v.get "params"))
      | none => notification method (Value.orNull (v.get "params"))) := by
  rw [ofValue, h]
  cases (v.get "id").bind Value.asU64 <;> rfl

end Message

end Termesh
