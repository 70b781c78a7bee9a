import Mathlib.Data.Nat.Notation

/-!
# Wakers

The waking side of the channels and streams: what a task's waker offers, and the source's
`AtomicWaker` with each of its operations as one step.
-/

namespace DoomFishUtils

set_option autoImplicit false

/-- Wakers are shared values: a clone of a waker is the same value and wakes the same task. -/
class TaskWaker (W : Type) where
  willWake : W → W → Bool
  willWake_self : ∀ waker, willWake waker waker = true

export TaskWaker (willWake willWake_self)

/-- A waker of the standard library, which compares the data pointer and the vtable. -/
structure RawWaker where
  data : ℕ
  vtable : ℕ
  deriving DecidableEq

instance : TaskWaker RawWaker where
  willWake waker other := decide (waker = other)
  willWake_self _ := decide_eq_true rfl

/-- The answer of a poll. -/
inductive Poll (α : Type) where
  | ready (value : α)
  | pending

/-- The transfer cell that holds the latest registered waker. -/
structure AtomicWaker (W : Type) where
  waker : Option W

namespace AtomicWaker

variable {W : Type}

def new : AtomicWaker W :=
  ⟨none⟩

def register [TaskWaker W] (cell : AtomicWaker W) (waker : W) : AtomicWaker W :=
  match cell.waker with
  | some old => if willWake old waker then cell else ⟨some waker⟩
  | none => ⟨some waker⟩

/-- The waker that `wake` calls, and the cell it leaves. -/
def take (cell : AtomicWaker W) : Option W × AtomicWaker W :=
  (cell.waker, ⟨none⟩)

end AtomicWaker

end DoomFishUtils
