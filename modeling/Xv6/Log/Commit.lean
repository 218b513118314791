import Xv6.Param
import Xv6.Library.Bytes
import Xv6.Library.Triple

/-!
# Committing and recovering a log transaction

The part of `log.c` that issues disk writes. A store holds the disk, the buffers that cache a
valid copy of a block, and the in-memory log header. Power may fail between any two block writes:
`writesLeft` counts those that will still be done.
-/
namespace Xv6.Log

open Library

/-- The log, the buffers and the disk as `commit` and `recover_from_log` see them.
The header `lh` is the list of the first `n` entries of `log.lh.block`. -/
structure Store where
  start : ℕ
  size : ℕ
  lh : List ℕ
  disk : ℕ → Bytes
  cache : ℕ → Option Bytes
  writesLeft : Option ℕ

inductive Crash
  | powerFailure
  deriving DecidableEq, Repr

abbrev LogM := EStateM Crash Store

namespace Store

/-- What `bread` returns for a block: its buffer, or the disk when it has none. -/
def view (s : Store) (b : ℕ) : Bytes := (s.cache b).getD (s.disk b)

/-- Block `b` lies in the on-disk log: the header block and the blocks after it. -/
def InLog (s : Store) (b : ℕ) : Prop := s.start ≤ b ∧ b < s.start + s.size

instance (s : Store) (b : ℕ) : Decidable (s.InLog b) := by
  unfold InLog
  infer_instance

def setBuf (s : Store) (b : ℕ) (d : Bytes) : Store :=
  { s with cache := Function.update s.cache b (some d) }

def flush (s : Store) (b : ℕ) : Store :=
  { s with
    disk := Function.update s.disk b (s.view b)
    writesLeft := s.writesLeft.map (· - 1) }

end Store

/-- Return the contents of a block, reading it into a buffer first if needed. -/
def bread (b : ℕ) : LogM Bytes := do
  let s ← get
  set (s.setBuf b (s.view b))
  return s.view b

def setData (b : ℕ) (d : Bytes) : LogM PUnit := modify fun s => s.setBuf b d

def bwrite (b : ℕ) : LogM PUnit := do
  let s ← get
  if s.writesLeft = some 0 then throw .powerFailure else set (s.flush b)

/-- `lh->n` of a header block, a C `int`: negative counts run no loop. -/
def headerCount (d : Bytes) : ℕ := if d.getLE 0 4 < 2 ^ 31 then d.getLE 0 4 else 0

/-- `lh->n` and `lh->block[0..n)` of a header block. -/
def getHeader (d : Bytes) : List ℕ :=
  (List.range (headerCount d)).map fun i => d.getLE (4 + 4 * i) 4

/-- Store block numbers in `hb->block[i..]`. -/
def putBlocks (d : Bytes) : ℕ → List ℕ → Bytes
  | _, [] => d
  | i, b :: bs => putBlocks (d.setLE (4 + 4 * i) 4 b) (i + 1) bs

def putHeader (d : Bytes) (lh : List ℕ) : Bytes := putBlocks (d.setLE 0 4 lh.length) 0 lh

def writeLog : LogM PUnit := do
  let s ← get
  loop (fun tail => do
    let _ ← bread (s.start + tail + 1)
    let src ← bread (s.lh.getD tail 0)
    setData (s.start + tail + 1) src
    bwrite (s.start + tail + 1)) 0 s.lh.length

def installTrans : LogM PUnit := do
  let s ← get
  loop (fun tail => do
    let lbuf ← bread (s.start + tail + 1)
    let _ ← bread (s.lh.getD tail 0)
    setData (s.lh.getD tail 0) lbuf
    bwrite (s.lh.getD tail 0)) 0 s.lh.length

def readHead : LogM PUnit := do
  let s ← get
  let buf ← bread s.start
  modify fun t => { t with lh := getHeader buf }

/-- Write the in-memory log header to disk: the true point at which the
transaction commits. -/
def writeHead : LogM PUnit := do
  let s ← get
  let buf ← bread s.start
  setData s.start (putHeader buf s.lh)
  bwrite s.start

def clearHead : LogM PUnit := modify fun s => { s with lh := [] }

/-- Write the transaction to the log, commit it, install it and erase it. -/
def commit : LogM PUnit := do
  let s ← get
  if s.lh.length > 0 then
    writeLog
    writeHead
    installTrans
    clearHead
    writeHead

def recoverFromLog : LogM PUnit := do
  readHead
  installTrans
  clearHead
  writeHead

/-- The disk a program leaves, whether it finished or power failed. -/
def diskAfter (x : LogM PUnit) (s : Store) : ℕ → Bytes :=
  match x s with
  | .ok _ t => t.disk
  | .error _ t => t.disk

/-- Memory after a reboot: no buffers, an empty header, the disk as it was left. -/
def reboot (s : Store) (disk : ℕ → Bytes) (writesLeft : Option ℕ) : Store :=
  { s with lh := [], disk := disk, cache := fun _ => none, writesLeft := writesLeft }

/-- The disk after `commit` is cut off following `k` block writes. -/
def crashedCommit (s : Store) (k : ℕ) : ℕ → Bytes :=
  diskAfter commit { s with writesLeft := some k }

/-- The disk after recoveries that are cut off following `ks` block writes each. -/
def crashedRecoveries (s : Store) (disk : ℕ → Bytes) (ks : List ℕ) : ℕ → Bytes :=
  ks.foldl (fun d k => diskAfter recoverFromLog (reboot s d (some k))) disk

section Equations

variable (s : Store)

theorem bread_eq (b : ℕ) : bread b s = .ok (s.view b) (s.setBuf b (s.view b)) := rfl

theorem setData_eq (b : ℕ) (d : Bytes) : setData b d s = .ok ⟨⟩ (s.setBuf b d) := rfl

@[simp] theorem Store.view_setBuf_self (b : ℕ) (d : Bytes) : (s.setBuf b d).view b = d := by
  simp [Store.view, Store.setBuf]

theorem Store.view_setBuf_of_ne {b c : ℕ} (d : Bytes) (h : c ≠ b) :
    (s.setBuf b d).view c = s.view c := by
  simp [Store.view, Store.setBuf, h]

@[simp] theorem Store.view_setBuf_view (b c : ℕ) : (s.setBuf b (s.view b)).view c = s.view c := by
  by_cases h : c = b
  · subst h
    simp
  · exact s.view_setBuf_of_ne _ h

theorem Store.view_flush (b c : ℕ) : (s.flush b).view c = s.view c := by
  by_cases h : c = b
  · subst h
    cases hc : s.cache c <;> simp [Store.view, Store.flush, hc]
  · simp [Store.view, Store.flush, h]

end Equations

end Xv6.Log
