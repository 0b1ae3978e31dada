import Mathlib

/-! Constants of `xv6/param.h` and `xv6/fs.h`. -/

namespace Laboratorio

def maxopblocks : ℕ := 10

def logsize : ℕ := maxopblocks * 3

def nlog : ℕ := logsize

def nbuf : ℕ := maxopblocks * 3

end Laboratorio
