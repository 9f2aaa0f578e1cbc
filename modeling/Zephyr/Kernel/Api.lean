import Zephyr.Lib.Index
/-!
# Return codes (errno.h) and time-outs of kernel calls
-/
namespace Zephyr

def eintr : ℤ := -4

def enoent : ℤ := -2

def eio : ℤ := -5

def einval : ℤ := -22

def eagain : ℤ := -11

def enomem : ℤ := -12

def ebusy : ℤ := -16

def emsgsize : ℤ := -36

def enomsg : ℤ := -80

inductive Timeout where
  | noWait
  | ticks
  | forever
deriving DecidableEq

end Zephyr
