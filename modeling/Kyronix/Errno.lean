import Mathlib

/-! Error numbers of the system calls; a failing call returns one negated. -/
namespace Kyronix

def eperm : ℤ := 1
def enoent : ℤ := 2
def esrch : ℤ := 3
def eintr : ℤ := 4
def eio : ℤ := 5
def enoexec : ℤ := 8
def ebadf : ℤ := 9
def eagain : ℤ := 11
def enomem : ℤ := 12
def eacces : ℤ := 13
def efault : ℤ := 14
def ebusy : ℤ := 16
def eexist : ℤ := 17
def enodev : ℤ := 19
def enotdir : ℤ := 20
def eisdir : ℤ := 21
def einval : ℤ := 22
def emfile : ℤ := 24
def efbig : ℤ := 27
def enospc : ℤ := 28
def erofs : ℤ := 30
def epipe : ℤ := 32
def enametoolong : ℤ := 36
def eoverflow : ℤ := 75
def enotsup : ℤ := 95
def eopnotsupp : ℤ := 95
def eaddrinuse : ℤ := 98
def econnrefused : ℤ := 111

theorem neg_errno_lt {e : ℤ} (h : 0 < e := by decide) : -e < 0 := Int.neg_neg_of_pos h

end Kyronix
