import CppLaravel.Http.Message

/-!
# `CppLaravel.Routing.Pipeline`: middleware (`include/pipeline.hpp`, `src/pipeline.cpp`)

A handler takes a request by reference and returns a response or throws; it may change the request
and the world `W`. A middleware is any program that does so and calls `next`, as often as it likes,
with a request of its own choice: `Layer` is what it does after it was called, step by step.
-/

set_option autoImplicit false

namespace CppLaravel.Routing

open CppLaravel.Http

/-- What is thrown: a `std::exception` with its text, or anything else. -/
inductive Thrown where
  | exception (what : Bytes)
  | other
deriving DecidableEq

/-- How a call ends. -/
abbrev Outcome := Except Thrown Response

section
variable {W : Type}

/-- `Handler` and `Next`: how the call ends, and the request and the world after it. -/
abbrev Handler (W : Type) := Request → W → Outcome × Request × W

/-- What a middleware does: it ends, with the request as it leaves it; it acts on the world; it
calls `next` with a request and goes on with how that ended and with the request after it. A throw
of `next` passes a middleware that ends with it. -/
inductive Layer (W : Type) where
  | finish (out : Outcome) (req : Request)
  | act (update : W → W) (rest : W → Layer W)
  | call (req : Request) (rest : Outcome → Request → Layer W)

/-- `Middleware`. -/
abbrev Middleware (W : Type) := Request → Layer W

/-- What a middleware does, with the given `next`. -/
def Layer.run (next : Handler W) : Layer W → W → Outcome × Request × W
  | finish out req, w => (out, req, w)
  | act update rest, w => (rest w).run next (update w)
  | call req rest, w =>
    let (out, req, w) := next req w
    (rest out req).run next w

/-- `Pipeline::run`, which wraps the handler from the last middleware to the first. -/
def Pipeline.run (middlewares : List (Middleware W)) (dest : Handler W) : Handler W :=
  middlewares.reverse.foldl (fun prev mw => fun req w => (mw req).run prev w) dest

end

end CppLaravel.Routing
