import Xv6.Log.Commit
import Xv6.Library.Circular
import Xv6.Library.Reach

/-!
# The buffer cache

`bio.c`, and the part of `log.c` that reads and writes through it, cut at the points where a lock
is taken or given back. A handle is one call of `bread` with what its caller does up to the end of
`brelse`. Buffers are nodes `0` to `NBUF - 1` of the list, and `NBUF` is the node `bcache.head`.
`virtio_disk_rw` is one access to the disk, which goes by the block number alone.

`latest` records the contents last logged or written. No function looks at it.
-/
namespace Xv6

def nBuf : ℕ := maxOpBlocks * 3

namespace Bio

open Xv6.Library Function

/-- `struct buf` without its links. `lock` is the handle whose caller has the sleep lock. `refcnt`
is a `uint`: there are less than `2 ^ 32` callers. -/
structure Buf where
  valid : Bool
  dev : ℕ
  blockno : ℕ
  lock : Option ℕ
  refcnt : ℕ
  data : Bytes

/-- Where a caller is: `bget` waits for the sleep lock, has it, `bread` has returned, `brelse` has
given the lock back. -/
inductive Stage
  | waiting
  | locked
  | ready
  | released
  deriving DecidableEq, Repr

/-- What a caller that has the lock has done with the data: nothing since it was read or logged,
changed it, or written it to disk since. -/
inductive Status
  | clean
  | dirty
  | written
  deriving DecidableEq, Repr

structure Handle where
  dev : ℕ
  blockno : ℕ
  buf : ℕ
  stage : Stage
  status : Status
  commit : Bool
  deriving DecidableEq, Repr

/-- The calls that make up `commit`, on its local variables `k`. -/
inductive Op
  | bget (k blockno : ℕ)
  | acquire (k : ℕ)
  | fill (k : ℕ)
  | memmove (k k' : ℕ)
  | putHead (k : ℕ)
  | bwrite (k : ℕ)
  | bunpin (k blockno : ℕ)
  | unlock (k : ℕ)
  | drop (k : ℕ)
  | clear
  deriving DecidableEq, Repr

namespace Op

def bread (k blockno : ℕ) : List Op := [.bget k blockno, .acquire k, .fill k]

def brelse (k : ℕ) : List Op := [.unlock k, .drop k]

/-- The loop of `write_log`, from `tail` on; `to` is variable 0 and `from` variable 1. -/
def writeLog (start : ℕ) : ℕ → List ℕ → List Op
  | _, [] => []
  | tail, b :: bs =>
    bread 0 (start + tail + 1) ++ bread 1 b ++ [.memmove 0 1, .bwrite 0] ++ brelse 1 ++ brelse 0 ++
      writeLog start (tail + 1) bs

def writeHead (start : ℕ) : List Op := bread 0 start ++ [.putHead 0, .bwrite 0] ++ brelse 0

/-- The loop of `install_trans`, from `tail` on; `lbuf` is variable 0 and `dbuf` variable 1. -/
def installTrans (start : ℕ) : ℕ → List ℕ → List Op
  | _, [] => []
  | tail, b :: bs =>
    bread 0 (start + tail + 1) ++ bread 1 b ++ [.memmove 1 0, .bwrite 1, .bunpin 1 b] ++ brelse 0 ++
      brelse 1 ++ installTrans start (tail + 1) bs

def commit (start : ℕ) (lh : List ℕ) : List Op :=
  if lh.length > 0 then
    writeLog start 0 lh ++ writeHead start ++ installTrans start 0 lh ++ [.clear] ++ writeHead start
  else []

end Op

/-- The cache, `struct log`, the disk and the callers. Block numbers are below `2 ^ 31`: beyond, the
sector number that `virtio_disk_rw` computes wraps around. -/
structure Cache where
  buf : ℕ → Buf
  links : Links ℕ
  disk : ℕ → Bytes
  handle : ℕ → Option Handle
  handles : ℕ
  dev : ℕ
  start : ℕ
  size : ℕ
  lh : List ℕ
  outstanding : ℕ
  committing : Bool
  todo : List Op
  var : ℕ → Option ℕ
  latest : ℕ → ℕ → Bytes

/-- Why a step does not happen: it waits, it is not the next one, the kernel panics, or a loop
over the list does not come back to its head. -/
inductive Refused
  | blocked
  | disabled
  | panic
  | endless
  deriving DecidableEq, Repr

/-- The steps of callers; `h` is a handle. -/
inductive Event
  | bget (dev blockno : ℕ)
  | acquire (h : ℕ)
  | fill (h : ℕ)
  | modify (h : ℕ) (data : Bytes)
  | logWrite (h : ℕ)
  | bwrite (h : ℕ)
  | unlock (h : ℕ)
  | drop (h : ℕ)
  | beginOp
  | endOp
  | commit
  | finish

namespace Cache

def setBuf (s : Cache) (b : ℕ) (x : Buf) : Cache := { s with buf := update s.buf b x }

def setHandle (s : Cache) (h : ℕ) (o : Option Handle) : Cache :=
  { s with handle := update s.handle h o }

/-- The contents of the block of buffer `x` are now those of the buffer. -/
def record (s : Cache) (x : Buf) : Cache :=
  { s with
    latest := update s.latest x.dev
      (update (s.latest x.dev) x.blockno x.data) }

def openHandle (s : Cache) (b dev blockno : ℕ) (commit : Bool) : Cache :=
  { s with
    handle := update s.handle s.handles (some ⟨dev, blockno, b, .waiting, .clean, commit⟩)
    handles := s.handles + 1 }

/-- The buffer that caches a block, looked for from `head.next` on. -/
def cached (s : Cache) (dev blockno : ℕ) : Option (Option ℕ) :=
  Links.walk s.links.next nBuf (fun b => (s.buf b).dev = dev ∧ (s.buf b).blockno = blockno)
    (nBuf + 1) (s.links.next nBuf)

/-- The least recently used buffer that is not in use, looked for from `head.prev` on. -/
def unused (s : Cache) : Option (Option ℕ) :=
  Links.walk s.links.prev nBuf (fun b => (s.buf b).refcnt = 0) (nBuf + 1) (s.links.prev nBuf)

/-- `bget` up to the sleep lock. -/
def bget (s : Cache) (dev blockno : ℕ) (commit : Bool) : Except Refused Cache :=
  match s.cached dev blockno with
  | none => .error .endless
  | some (some b) =>
    .ok ((s.setBuf b { s.buf b with refcnt := (s.buf b).refcnt + 1 }).openHandle b dev blockno
      commit)
  | some none =>
    match s.unused with
    | none => .error .endless
    | some none => .error .panic
    | some (some b) =>
      .ok ((s.setBuf b { s.buf b with dev, blockno, valid := false, refcnt := 1 }).openHandle b dev
        blockno commit)

/-- `bget` gets the sleep lock. -/
def acquire (s : Cache) (h : ℕ) (x : Handle) : Except Refused Cache :=
  if (s.buf x.buf).lock = none then
    .ok ((s.setBuf x.buf { s.buf x.buf with lock := some h }).setHandle h
      (some { x with stage := .locked }))
  else .error .blocked

def fill (s : Cache) (h : ℕ) (x : Handle) : Cache :=
  if (s.buf x.buf).valid then s.setHandle h (some { x with stage := .ready })
  else
    (s.setBuf x.buf { s.buf x.buf with
      data := s.disk (s.buf x.buf).blockno, valid := true }).setHandle h
      (some { x with stage := .ready })

def modify (s : Cache) (h : ℕ) (x : Handle) (data : Bytes) : Cache :=
  (s.setBuf x.buf { s.buf x.buf with data := data }).setHandle h (some { x with status := .dirty })

def bwrite (s : Cache) (h : ℕ) (x : Handle) : Except Refused Cache :=
  if (s.buf x.buf).lock ≠ some h then .error .panic
  else
    .ok (({ s with
      disk := update s.disk (s.buf x.buf).blockno (s.buf x.buf).data }.record
        (s.buf x.buf)).setHandle h (some { x with status := .written }))

/-- `brelse` up to `bcache.lock`. -/
def unlock (s : Cache) (h : ℕ) (x : Handle) : Except Refused Cache :=
  if (s.buf x.buf).lock ≠ some h then .error .panic
  else
    .ok ((s.setBuf x.buf { s.buf x.buf with lock := none }).setHandle h
      (some { x with stage := .released, status := .clean }))

/-- The rest of `brelse`: a buffer that is not in use becomes the most recently used one. -/
def drop (s : Cache) (h : ℕ) (x : Handle) : Cache :=
  let refcnt := (s.buf x.buf).refcnt - 1
  let s' := (s.setBuf x.buf { s.buf x.buf with refcnt }).setHandle h none
  if refcnt = 0 then { s' with links := (s.links.unlink x.buf).pushFront nBuf x.buf } else s'

def bpin (s : Cache) (b : ℕ) : Cache :=
  s.setBuf b { s.buf b with refcnt := (s.buf b).refcnt + 1 }

def bunpin (s : Cache) (b : ℕ) : Cache :=
  s.setBuf b { s.buf b with refcnt := (s.buf b).refcnt - 1 }

/-- `log_write`: the block is added to the header and its buffer pinned, unless it is there. -/
def logWrite (s : Cache) (h : ℕ) (x : Handle) : Except Refused Cache :=
  if s.lh.length ≥ logSize ∨ s.lh.length + 1 ≥ s.size then .error .panic
  else if s.outstanding < 1 then .error .panic
  else
    let t := (s.record (s.buf x.buf)).setHandle h (some { x with status := .clean })
    if (s.buf x.buf).blockno ∈ s.lh then .ok t
    else .ok ({ t with lh := s.lh ++ [(s.buf x.buf).blockno] }.bpin x.buf)

/-- One pass of the loop in `begin_op`. -/
def beginOp (s : Cache) : Except Refused Cache :=
  if s.committing then .error .blocked
  else if s.lh.length + (s.outstanding + 1) * maxOpBlocks > logSize then .error .blocked
  else .ok { s with outstanding := s.outstanding + 1 }

/-- `end_op` up to the commit. -/
def endOp (s : Cache) : Except Refused Cache :=
  if s.outstanding = 0 then .error .disabled
  else if s.committing then .error .panic
  else if s.outstanding = 1 then
    .ok { s with outstanding := 0, committing := true, todo := Op.commit s.start s.lh }
  else .ok { s with outstanding := s.outstanding - 1 }

/-- What the caller with handle `h` does when it is at `stage`. -/
def via (s : Cache) (commit : Bool) (h : ℕ) (stage : Stage)
    (k : Handle → Except Refused Cache) : Except Refused Cache :=
  match s.handle h with
  | some x => if x.stage = stage ∧ x.commit = commit then k x else .error .disabled
  | none => .error .disabled

def viaVar (s : Cache) (k : ℕ) (stage : Stage) (f : ℕ → Handle → Except Refused Cache) :
    Except Refused Cache :=
  match s.var k with
  | some h => s.via true h stage (f h)
  | none => .error .disabled

/-- A call made by `commit`. -/
def perform (s : Cache) : Op → Except Refused Cache
  | .bget k b => { s with var := update s.var k (some s.handles) }.bget s.dev b true
  | .acquire k => s.viaVar k .waiting s.acquire
  | .fill k => s.viaVar k .locked fun h x => .ok (s.fill h x)
  | .memmove k k' => s.viaVar k .ready fun h x => s.viaVar k' .ready fun _ x' =>
      .ok (s.modify h x (s.buf x'.buf).data)
  | .putHead k => s.viaVar k .ready fun h x =>
      .ok (s.modify h x (Log.putHeader (s.buf x.buf).data s.lh))
  | .bwrite k => s.viaVar k .ready s.bwrite
  | .bunpin k _ => s.viaVar k .ready fun _ x => .ok (s.bunpin x.buf)
  | .unlock k => s.viaVar k .ready s.unlock
  | .drop k => s.viaVar k .released fun h x => .ok (s.drop h x)
  | .clear => .ok { s with lh := [] }

def step (s : Cache) : Event → Except Refused Cache
  | .bget dev b => s.bget dev b false
  | .acquire h => s.via false h .waiting (s.acquire h)
  | .fill h => s.via false h .locked fun x => .ok (s.fill h x)
  | .modify h data => s.via false h .ready fun x => .ok (s.modify h x data)
  | .logWrite h => s.via false h .ready (s.logWrite h)
  | .bwrite h => s.via false h .ready (s.bwrite h)
  | .unlock h => s.via false h .ready (s.unlock h)
  | .drop h => s.via false h .released fun x => .ok (s.drop h x)
  | .beginOp => s.beginOp
  | .endOp => s.endOp
  | .commit =>
    match s.todo with
    | [] => .error .disabled
    | op :: ops => { s with todo := ops }.perform op
  | .finish =>
    if s.committing ∧ s.todo = [] then .ok { s with committing := false } else .error .disabled

/-- The interface: device 0 stands for no device, and a buffer that was changed is logged or
written before it is released. -/
def Proper (s : Cache) : Event → Prop
  | .bget dev _ => dev ≠ 0
  | .unlock h => (s.handle h).map Handle.status ≠ some .dirty
  | _ => True

instance (s : Cache) (e : Event) : Decidable (s.Proper e) := by
  cases e <;> unfold Proper <;> infer_instance

/-- The list `binit` builds: each buffer is put right after the head. -/
def binitLinks : Links ℕ :=
  (List.range nBuf).foldl (fun L b => L.pushFront nBuf b) ⟨fun _ => nBuf, fun _ => nBuf⟩

/-- After `binit`, with the log on device `dev` empty. -/
def binit (disk : ℕ → Bytes) (dev start size : ℕ) : Cache where
  buf := fun _ => ⟨false, 0, 0, none, 0, fun _ => 0⟩
  links := binitLinks
  disk := disk
  handle := fun _ => none
  handles := 0
  dev := dev
  start := start
  size := size
  lh := []
  outstanding := 0
  committing := false
  todo := []
  var := fun _ => none
  latest := fun _ => disk

end Cache

end Bio

end Xv6
