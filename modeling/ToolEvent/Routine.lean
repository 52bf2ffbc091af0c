import ToolEvent.Library.Fallible
import ToolEvent.Record

/-!
# Routines of the sources

A function of the sources that returns 0 or -1 is a fallible routine over the
object it changes, with the allocation outcomes of the call. The error carried is
the one the source raises on its `p101_error` argument.
-/

namespace ToolEvent

/-- The errors that the sources name, and the numbers that the system leaves in `errno`. -/
inductive Errno
  | einval | enomem | eoverflow | efbig | eio
  | other (number : ℕ)
  deriving DecidableEq

/-- `errno` before anything has set it. -/
def Errno.unset : Errno := .other 0

/-- What `P101_ERROR_RAISE_CHECK` and `P101_ERROR_RAISE_ERRNO` report. `unfinished`
marks a modelled loop that ran out of its step bound, which no run does, and `outside`
an access outside an array. -/
inductive Raised
  | check
  | errno (code : Errno)
  | unfinished
  | outside
  deriving DecidableEq

abbrev Routine (σ : Type) (α : Type) := Fallible Raised (World σ) α

end ToolEvent
