import DoomFishUtils.Library.Unwind

/-!
# Panic containment

The source's helpers for callbacks that are called across a C interface.  User code, destructors
and the diagnostic write may panic with a payload, whose destructor may panic in turn; a second
panic during an unwinding aborts.
-/

namespace DoomFishUtils.PanicSafe

set_option autoImplicit false

open DoomFishUtils.Library

/-- What the helpers do beside running what they are given, with how it ended. -/
inductive Event (P E : Type) where
  | wrote (line : String) (ending : Except P Unit)
  | dropped (payload : P) (ending : Except P Unit)
  | forgot (payload : P)
  /-- An event of the code that runs inside. -/
  | own (event : E)

/-- The payloads and the diagnostic write. -/
structure Panics (P σ : Type) where
  /-- `downcast_ref` to `&'static str` and to `String`. -/
  staticStr : P → Option String
  string : P → Option String
  eprintln : String → Foreign P σ Unit
  destructor : P → Foreign P σ Unit

namespace Panics

variable {P σ E R : Type} (panics : Panics P σ)

/-- `drop(payload)`. -/
def drop (payload : P) : Code P σ (Event P E) Unit :=
  .run (.dropped payload) (panics.destructor payload)

def dropPayloadBestEffort (payload : P) : Code P σ (Event P E) Unit := do
  match ← Code.catchUnwind (panics.drop payload) with
  | .ok () => return ()
  | .error undroppablePayload => Code.emit (.forgot undroppablePayload)

/-- The message of a payload. -/
def message (payload : P) : String :=
  ((panics.staticStr payload).orElse fun _ => panics.string payload).getD
    "<non-string panic payload>"

def diagnostic (site message : String) : String :=
  "doom-fish-utils: panic in " ++ site ++ " caught at C ABI boundary: " ++ message

def logCallbackPanic (site : String) (payload : P) : Code P σ (Event P E) Unit := do
  let line := diagnostic site (panics.message payload)
  match ← Code.catchUnwind (.run (.wrote line) (panics.eprintln line)) with
  | .ok () => return ()
  | .error payload => panics.dropPayloadBestEffort payload

/-- `catch_user_panic_result`.  A frame that logs a payload holds it meanwhile. -/
def catchUserPanicResult (site : String) (f : Code P σ (Event P E) R) :
    Code P σ (Event P E) (Option R) := do
  let boundaryResult ← Code.catchUnwind do
    match ← Code.catchUnwind f with
    | .ok result => return some result
    | .error payload =>
      Code.holding (panics.drop payload) (panics.logCallbackPanic site payload)
      panics.drop payload
      return none
  match boundaryResult with
  | .ok result => return result
  | .error payload =>
    Code.holding (panics.drop payload) (panics.logCallbackPanic site payload)
    panics.dropPayloadBestEffort payload
    return none

def catchUserPanic (site : String) (f : Code P σ (Event P E) Unit) :
    Code P σ (Event P E) Unit := do
  let _ ← panics.catchUserPanicResult site f
  return ()

end Panics

/-- The code that a call with an explicit cleanup is given. -/
inductive Phase (P R : Type) where
  | callback (ending : Except P R)
  | cleanup (ending : Except P Unit)
  | dropCallback (ending : Except P Unit)
  | dropCleanup (ending : Except P Unit)
  | dropState (ending : Except P Unit)
  | dropResult (result : R) (ending : Except P Unit)

/-- The bodies, which share the state by reference, and the destructors. -/
structure Client (P σ R : Type) where
  callback : Foreign P σ R
  cleanup : Foreign P σ Unit
  dropCallback : Foreign P σ Unit
  dropCleanup : Foreign P σ Unit
  dropState : Foreign P σ Unit
  dropResult : R → Foreign P σ Unit

namespace Client

variable {P σ R : Type} (client : Client P σ R)

/-- Runs a part of the client. -/
def part {α : Type} (phase : Except P α → Phase P R) (foreign : Foreign P σ α) :
    Code P σ (Event P (Phase P R)) α :=
  .run (fun ending => .own (phase ending)) foreign

def destroy : Option R → Code P σ (Event P (Phase P R)) Unit
  | some result => part (.dropResult result) (client.dropResult result)
  | none => return ()

/-- Destroys a result that the callback has produced for nothing. -/
def dropUnreturned (panics : Panics P σ) (site : String) :
    Option R → Code P σ (Event P (Phase P R)) Unit
  | some result => panics.catchUserPanic site (client.destroy (some result))
  | none => return ()

/-- `catch_user_panic_result_with_cleanup`.  What the frame holds is destroyed, last one first,
should a phase unwind out of its boundary. -/
def catchUserPanicResultWithCleanup (panics : Panics P σ) (site : String) :
    Code P σ (Event P (Phase P R)) (Option R) := do
  let dropF := part .dropCallback client.dropCallback
  let dropCleanup := part .dropCleanup client.dropCleanup
  let dropState := part .dropState client.dropState
  let callbackResult ← Code.holding (do dropCleanup; dropF; dropState) <|
    panics.catchUserPanicResult site (part .callback client.callback)
  let cleanupResult ← Code.holding (do client.destroy callbackResult; dropCleanup; dropF; dropState) <|
    panics.catchUserPanicResult site (part .cleanup client.cleanup)
  let callbackDropResult ← Code.holding (do client.destroy callbackResult; dropCleanup; dropState) <|
    panics.catchUserPanicResult site dropF
  let cleanupDropResult ← Code.holding (do client.destroy callbackResult; dropState) <|
    panics.catchUserPanicResult site dropCleanup
  let stateDropResult ← Code.holding (client.destroy callbackResult) <|
    panics.catchUserPanicResult site dropState
  if callbackDropResult.isSome && cleanupResult.isSome && cleanupDropResult.isSome &&
      stateDropResult.isSome then
    return callbackResult
  else
    client.dropUnreturned panics site callbackResult
    return none

end Client

end DoomFishUtils.PanicSafe
