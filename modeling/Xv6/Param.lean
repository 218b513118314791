import Mathlib.Tactic

/-!
# Kernel parameters

The constants of `param.h`, `fs.h`, `riscv.h` and `memlayout.h` that the models
below share.
-/
namespace Xv6

def maxOpBlocks : ℕ := 10

def logSize : ℕ := maxOpBlocks * 3

def bSize : ℕ := 1024

def nDirect : ℕ := 12

def nIndirect : ℕ := bSize / 4

def maxFile : ℕ := nDirect + nIndirect

def nProc : ℕ := 64

def nOFile : ℕ := 16

def perProcessVmas : ℕ := 4

def nVmas : ℕ := perProcessVmas * nProc

def pgSize : ℕ := 4096

/-- `MAXVA`: one beyond the highest user virtual address. -/
def maxVa : ℕ := 2 ^ 38

/-- `TRAMPOLINE`: the highest page. -/
def trampoline : ℕ := maxVa - pgSize

/-- `TRAPFRAME`: the page below it. -/
def trapframe : ℕ := trampoline - pgSize

/-- `PHYSTOP / PGSIZE`: one beyond the last physical page. -/
def physStop : ℕ := 0x88000

end Xv6
