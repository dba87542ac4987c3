/-
# Two programs that look at the signals pending

`0105/mysignal.cc` (the third of its programs, the one in force) blocks one
signal after the other and then shows those pending, over and over.
`0108/mysignal1.cc` catches `SIGINT`, with the signals 3 to 7 blocked
meanwhile, and shows those pending in the handler; its `main` sleeps.

Each call is a step.  A line is printed in one, but what `main` of the second
program prints goes out in the three pieces it is put together from, so that
the handler may come in between; what a signal does within one insertion into
`cout` is left out.  `sleep` is a step that a signal may cut short.  Both start
with no signal blocked and none caught.
-/

import OSNetWorkCode.Lib.Decimal
import OSNetWorkCode.Unix.Signals

namespace OSNetWorkCode
namespace MySignal

open Unix

/-- `showPending`: a digit for each signal from 1 to 31, and the end of the
line.  Both programs have it; in `0105` the line ends with `endl`, in `0108`
with a newline.  The bytes are those that are handed to `cout`.  Its output is
a terminal, where they are shown at the latest with the newline. -/
def showPending (pending : Finset ℕ) : List UInt8 :=
  (List.range' 1 31).map (fun sig => if sig ∈ pending then 49 else 48) ++ [10]

/-! ### `0105/mysignal.cc` -/

/-- The places of `main`. -/
inductive Masking
  /-- `blockSig(sig)`, where `sig` is not beyond 32. -/
  | block (sig : ℕ)
  | sigpending
  | show (pending : Finset ℕ)
  | sleep

/-- `main`. -/
def masking : Masking → Instr Masking
  | .block sig => if sig ≤ 32 then .block {sig} (.block (sig + 1)) else .goto .sigpending
  | .sigpending => .sigpending .show
  | .show pending => .print (showPending pending) .sleep
  | .sleep => .goto .sigpending

/-- Its runs. -/
def maskings : System (Signaled Masking) := Signaled.runs masking (.block 1)

/-! ### `0108/mysignal1.cc` -/

/-- The places of `main` and of `handler`. -/
inductive Catching
  | sigaction
  /-- `main` has so many pieces to print. -/
  | report (left : List (List UInt8))
  | pause
  /-- `handler(signum)`. -/
  | caught (signum : ℕ)
  /-- `while (cnt--)`. -/
  | test (cnt : ℕ)
  | sigpending (cnt : ℕ)
  | show (cnt : ℕ) (pending : Finset ℕ)
  | sleep (cnt : ℕ)

/-- `"default action: "`, the old handler, which is `0`, and the end of the
line. -/
def report : List (List UInt8) :=
  [[100, 101, 102, 97, 117, 108, 116, 32, 97, 99, 116, 105, 111, 110, 58, 32], decimal 0, [10]]

/-- `"获取了一个信号: "` with `signum` behind it, in UTF-8. -/
def caughtLine (signum : ℕ) : List UInt8 :=
  [232, 142, 183, 229, 143, 150, 228, 186, 134, 228, 184, 128, 228, 184, 170, 228, 191, 161, 229, 143,
    183, 58, 32] ++ decimal signum ++ [10]

/-- `act.sa_mask`. -/
def saMask : Finset ℕ := {3, 4, 5, 6, 7}

/-- `main` and `handler`. -/
def catching : Catching → Instr Catching
  | .sigaction => .sigaction 2 (.caught 2) saMask (.report report)
  | .report [] => .goto .pause
  | .report (piece :: left) => .print piece (.report left)
  | .pause => .goto .pause
  | .caught signum => .print (caughtLine signum) (.test 10)
  | .test 0 => .ret
  | .test (cnt + 1) => .goto (.sigpending cnt)
  | .sigpending cnt => .sigpending (.show cnt)
  | .show cnt pending => .print (showPending pending) (.sleep cnt)
  | .sleep cnt => .goto (.test cnt)

/-- Its runs. -/
def catchings : System (Signaled Catching) := Signaled.runs catching .sigaction

end MySignal
end OSNetWorkCode
