import Mathlib.Data.Int.Notation

/-! # Results of requests

A handler returns a result or an error object, or it panics.
-/

namespace AnvilReth

structure RpcError where
  code : ℤ
  message : String
  deriving DecidableEq

abbrev RpcResult := Except RpcError

def internalError (message : String) : RpcError where
  code := -32603
  message

def invalidParams (message : String) : RpcError where
  code := -32602
  message

/-- How a handler ends: it returns a result or panics. -/
inductive Outcome (α : Type) where
  | returned (result : RpcResult α)
  | panicked

end AnvilReth
