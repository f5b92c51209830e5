import Mathlib.Data.Nat.Notation

/-!
# Error numbers, kernel replies, and results

The values that the tasks and the sockets exchange: `errno` as `recv` and `send` set it, what such a
call returns, and `Result` of `src/core/result.cpp`, which a callback receives.
-/

namespace Spinet

/-- `errno`: the two values that the sources name, and all others. -/
inductive Errno
  | EAGAIN
  | EBADF
  | other (code : ℕ)
deriving DecidableEq, Repr

/-- What `::recv` or `::send` returns: a number of bytes, or `-1` with `errno` set. -/
inductive IoRet
  | bytes (n : ℕ)
  | fail (e : Errno)
deriving DecidableEq, Repr

/-- `Result`: no error, a system error, or an error with a text of its own. -/
structure Result where
  /-- `err_`, an optional variant. -/
  err : Option (Errno ⊕ String)
deriving DecidableEq, Repr

namespace Result

/-- `Result::ok`. -/
def ok : Result := ⟨none⟩

/-- `Result::system_error`. -/
def systemError (ec : Errno) : Result := ⟨some (.inl ec)⟩

/-- `Result::operator bool`. -/
def isOk (r : Result) : Bool := !r.err.isSome

@[simp] theorem isOk_ok : ok.isOk = true := rfl

@[simp] theorem isOk_systemError (ec : Errno) : (systemError ec).isOk = false := rfl

end Result

end Spinet
