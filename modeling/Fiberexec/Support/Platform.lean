import Mathlib.Data.Int.DivMod
import Mathlib.Data.Int.Notation
import Mathlib.Data.Nat.Notation

/-!
# Numbers of the platform

Error numbers, times as the kernel takes them, and limits.
-/

namespace Fiberexec.Support

/-- `ECANCELED`. -/
def ecanceled : ℤ := 125

/-- `EINVAL`. -/
def einval : ℤ := 22

/-- `ENODATA`. -/
def enodata : ℤ := 61

/-- `ETIME`. -/
def etime : ℤ := 62

/-- `MAX_RW_COUNT`, the most that one read or write moves. -/
def maxRwCount : ℕ := 0x7ffff000

/-- `max_size` of a vector of bytes. -/
def maxBytes : ℕ := 0x7fffffffffffffff

/-- `__kernel_timespec`. -/
structure Timespec where
  tvSec : ℤ
  tvNsec : ℤ
  deriving DecidableEq

/-- A count of nanoseconds, split by divisions that round towards zero. -/
def timespec (ns : ℤ) : Timespec where
  tvSec := ns.tdiv 1000000000
  tvNsec := ns.tmod 1000000000

/-- The nanoseconds that the kernel waits. -/
def Timespec.nanos (ts : Timespec) : ℤ :=
  ts.tvSec * 1000000000 + ts.tvNsec

theorem nanos_timespec (ns : ℤ) : (timespec ns).nanos = ns :=
  Int.tdiv_mul_add_tmod ns 1000000000

end Fiberexec.Support
