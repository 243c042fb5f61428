import Mathlib.Data.Rat.Defs
set_option autoImplicit false

/-! The JSON values of the node, the errors of the gateway and its retries (`rpc.ts`). -/

namespace OnlyDoge

/-- What `JSON.parse` gives; `infinite` is a number beyond the doubles. -/
inductive Json where
  | null
  | bool (value : Bool)
  | number (value : Rat)
  | infinite (negative : Bool)
  | string (value : String)
  | array (items : List Json)
  | object (fields : List (String × Json))

/-- A JavaScript value read from JSON; `none` is `undefined`. -/
abbrev JsValue := Option Json

namespace Json

/-- Of equal names the last one stands. -/
def property (name : String) : Json → JsValue
  | .object fields => fields.reverse.lookup name
  | _ => none

def truthy : Json → Bool
  | .null => false
  | .bool value => value
  | .number value => value ≠ 0
  | .string value => value ≠ ""
  | _ => true

def isArray : Json → Bool
  | .array _ => true
  | _ => false

def items : Json → List Json
  | .array items => items
  | _ => []

end Json

/-- The errors of the gateway; `thrown` is any error that is no `InfrastructureError`. -/
inductive RpcError where
  | connection (rpcEndpoint : String)
  | workQueueExceeded (rpcEndpoint : String)
  | invalidResponse (method : String)
  | hashMismatch (blockHeight : Nat) (expected : Json) (decoded : String)
  | decoding (message : String)
  | thrown

def isRetryableRpcError : RpcError → Bool
  | .workQueueExceeded _ => true
  | _ => false

def toInfrastructureError (rpcEndpoint : String) : RpcError → RpcError
  | .thrown => .connection rpcEndpoint
  | error => error

def rpcRetryAttempts : Nat := 4

/-- Whether a failed attempt, of this number, is followed by another. -/
def triesAgain (isRetryable : Bool) (attempt : Nat) : Bool :=
  !(!isRetryable || attempt ≥ rpcRetryAttempts - 1)

theorem triesAgain_eq_true {isRetryable : Bool} {attempt : Nat} :
    triesAgain isRetryable attempt = true ↔
      isRetryable = true ∧ attempt + 1 < rpcRetryAttempts := by
  simp only [triesAgain,rpcRetryAttempts]
  grind

/-- The attempts from number `attempt` on, where `left` of them are left. -/
def retryFrom {α : Type} (rpcEndpoint : String) (operation : Nat → Except RpcError α) :
    Nat → Nat → Except RpcError α
  | 0,_ => .error (toInfrastructureError rpcEndpoint .thrown)
  | left + 1,attempt =>
    match operation attempt with
    | .ok a => .ok a
    | .error error =>
      if triesAgain (isRetryableRpcError error) attempt then
        retryFrom rpcEndpoint operation left (attempt + 1)
      else .error (toInfrastructureError rpcEndpoint error)

def withRpcRetry {α : Type} (rpcEndpoint : String) (operation : Nat → Except RpcError α) :
    Except RpcError α :=
  retryFrom rpcEndpoint operation rpcRetryAttempts 0

theorem withRpcRetry_ok {α : Type} {rpcEndpoint : String} {operation : Nat → Except RpcError α}
    {a : α} (h : withRpcRetry rpcEndpoint operation = .ok a) :
    ∃ attempt, operation attempt = .ok a := by
  have hfrom : ∀ left attempt, retryFrom rpcEndpoint operation left attempt = .ok a →
      ∃ attempt, operation attempt = .ok a := by
    intro left
    induction left with
    | zero =>
      intro attempt h
      cases h
    | succ left ih =>
      intro attempt h
      rw [retryFrom] at h
      split at h
      · next b hb =>
        cases h
        exact ⟨attempt,hb⟩
      · split at h
        · exact ih _ h
        · cases h
  exact hfrom _ _ h

end OnlyDoge
