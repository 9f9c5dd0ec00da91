import Mathlib.Data.Nat.Notation
set_option autoImplicit false

namespace FluentNet

/-- What the modelled code throws. Every constructor but the last is a
`std::exception`; the last marks undefined behaviour. -/
inductive Exn where
  | socketException (err : Nat)
  | writeException (err : Nat)
  | epollControlException (err : Nat)
  | fluentException (info : String)
  /-- `std::length_error`, from a container asked for an impossible size -/
  | lengthError
  /-- any `std::exception` that leaves a user callback -/
  | callbackException
  | undefined
  deriving DecidableEq, Repr

def EPERM : Nat := 1
def ENOENT : Nat := 2
def EINTR : Nat := 4
def EAGAIN : Nat := 11
def EEXIST : Nat := 17
def EADDRINUSE : Nat := 98
def EADDRNOTAVAIL : Nat := 99
def ENETUNREACH : Nat := 101
def EISCONN : Nat := 106
def ETIMEDOUT : Nat := 110
def ECONNREFUSED : Nat := 111
def EALREADY : Nat := 114
def EINPROGRESS : Nat := 115

end FluentNet
