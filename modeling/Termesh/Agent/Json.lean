import Mathlib.Algebra.Group.Int.Defs
import Mathlib.Algebra.GroupWithZero.Nat
import Mathlib.Tactic.Common

/-!
# JSON values and JSON-RPC messages

`Value` is a parsed JSON value with the number cases the JSON crate tells apart; `Message` is one
JSON-RPC 2.0 message in either direction.
-/

namespace Termesh

/-- A JSON number. Only non-negative integers are read as `u64`. -/
inductive Number where
  | posInt (n : ℕ)
  | negInt (n : Int)
  | float (bits : UInt64)
deriving DecidableEq, Repr

/-- A JSON value. -/
inductive Value where
  | null
  | bool (b : Bool)
  | number (n : Number)
  | string (s : String)
  | array (items : List Value)
  | object (fields : List (String × Value))

namespace Value

/-- `Value::get` with a key. -/
def get (v : Value) (key : String) : Option Value :=
  match v with
  | object fields => (fields.find? (·.1 == key)).map Prod.snd
  | _ => none

/-- The text of a string. -/
def asStr : Value → Option String
  | string s => some s
  | _ => none

/-- The items of an array. -/
def asArray : Value → Option (List Value)
  | array items => some items
  | _ => none

/-- A number that is a non-negative integer. -/
def asU64 : Value → Option ℕ
  | number (.posInt n) => some n
  | _ => none

/-- A truth value. -/
def asBool : Value → Option Bool
  | bool b => some b
  | _ => none

/-- `get(key).and_then(Value::as_str)`. -/
def getStr (v : Value) (key : String) : Option String := (v.get key).bind asStr

/-- An optional value, `null` when absent. -/
def orNull (v : Option Value) : Value := v.getD null

end Value

/-- A JSON-RPC message. -/
inductive Message where
  | request (id : ℕ) (method : String) (params : Value)
  | response (id : ℕ) (result : Value)
  | error (id : ℕ) (code : Int) (message : String)
  | notification (method : String) (params : Value)

/-- The request a message answers. -/
def Message.answers : Message → Option ℕ
  | .response id _ => some id
  | .error id _ _ => some id
  | _ => none

end Termesh
