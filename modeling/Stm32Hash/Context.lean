/-
A session, and the two functions that move it in and out of the engine.

`Ctx` is `struct stm32_hash_context` with the fields the driver uses; `Drv` is a driver call
in progress: it threads the session and the engine's registers, jumps to `exit` with a result
code (every `goto exit` and every early `return res` of the source), or runs into undefined
behaviour.  `save_context`, `restore_context`, `stm32_hash_alloc` and
`stm32_hash_deep_copy` are written over it here; the streaming calls are in
`Stm32Hash/Driver.lean`.

Locking and clock gating (`mutex_lock`, `clk_enable` and their partners) bracket every call
and have no effect on either state, so they are not modelled: a call runs as one step.
-/
import Stm32Hash.Engine

namespace Stm32Hash

variable {V : Type}

/-- `struct stm32_hash_context`. -/
structure Ctx (V : Type) where
  /-- `c->dev->pdata.compat->caps`, the capabilities of the probed engine. -/
  caps : Nat
  mode : Mode
  algo : Algo
  digestU32 : Nat
  blockSize : Nat
  saveMode : SaveMode
  queueSize : Nat
  /-- `c->remain.buf`, `NULL` or the pending bytes' buffer. -/
  remainBuf : Option (List UInt8)
  /-- `c->remain.len`. -/
  remainLen : Nat
  imr : BitVec 32
  str : BitVec 32
  cr : BitVec 32
  /-- `c->csr`, `NULL` or the saved context registers. -/
  csr : Option (List V)

/-- The context registers this session saves. -/
def Ctx.saveRegs (c : Ctx V) : SaveRegs := getSaveRegisters c.saveMode c.mode

/-- What `stm32_hash_alloc` fixes for the life of a session. -/
structure Config where
  caps : Nat
  mode : Mode
  algo : Algo
  digestU32 : Nat
  blockSize : Nat
  saveMode : SaveMode
  deriving DecidableEq, Repr

/-- A session's configuration. -/
def Ctx.config (c : Ctx V) : Config :=
  ⟨c.caps, c.mode, c.algo, c.digestU32, c.blockSize, c.saveMode⟩

/-- What `stm32_hash_alloc` sets up: the sizes are the algorithm's, and both arrays are
allocated at the sizes it chose. -/
structure Ctx.Allocated (c : Ctx V) : Prop where
  blockSize : c.blockSize = (algoInfo c.algo).blockSize
  saveMode : c.saveMode = (algoInfo c.algo).saveMode
  remainBuf : ∃ buf, c.remainBuf = some buf ∧ buf.length = c.blockSize + 4
  csr : ∃ csr, c.csr = some csr ∧ csr.length = c.saveRegs.size

/-- An allocated session whose pending bytes and queue size fit its pending buffer, as
`stm32_hash_init` leaves it and every later call keeps it. -/
structure Ctx.WF (c : Ctx V) extends c.Allocated : Prop where
  remainLen : c.remainLen ≤ c.blockSize + 4
  queueSize : c.queueSize ≤ c.blockSize + 4

/-- An allocated session's block size is a whole number of words, and more than one. -/
theorem Ctx.Allocated.blockSize_words {c : Ctx V} (hc : c.Allocated) :
    c.blockSize % 4 = 0 ∧ 8 ≤ c.blockSize := by
  rw [hc.blockSize]
  exact algoInfo_blockSize c.algo

/-- A pending buffer of the buffer's size, with any pending length and queue size, keeps a
session allocated. -/
theorem Ctx.Allocated.withRemain {c : Ctx V} (hc : c.Allocated) {buf : List UInt8}
    (hbl : buf.length = c.blockSize + 4) {r q : Nat} :
    ({ c with remainBuf := some buf, remainLen := r, queueSize := q } : Ctx V).Allocated :=
  ⟨hc.blockSize, hc.saveMode, ⟨_, rfl, hbl⟩, hc.csr⟩

/-! ### Driver calls -/

/-- A driver call in progress: from a session and an engine it ends in undefined behaviour
(`none`), or in a new session and engine with a value, or with the code it jumps to `exit`
with. -/
def Drv (V α : Type) : Type := Ctx V × Regs V → Option (Except TeeResult α × Ctx V × Regs V)

namespace Drv

variable {α β : Type}

protected def pure (a : α) : Drv V α := fun s => some (.ok a, s)

protected def bind (x : Drv V α) (f : α → Drv V β) : Drv V β := fun s =>
  match x s with
  | some (.ok a, s) => f a s
  | some (.error e, s) => some (.error e, s)
  | none => none

instance : Monad (Drv V) where
  pure := Drv.pure
  bind := Drv.bind

def getCtx : Drv V (Ctx V) := fun s => some (.ok s.1, s)
def setCtx (c : Ctx V) : Drv V Unit := fun s => some (.ok (), c, s.2)
def modifyCtx (f : Ctx V → Ctx V) : Drv V Unit := fun s => some (.ok (), f s.1, s.2)
def getRegs : Drv V (Regs V) := fun s => some (.ok s.2, s)
/-- A write to the engine. -/
def io (f : Regs V → Regs V) : Drv V Unit := fun s => some (.ok (), s.1, f s.2)
/-- `goto exit` with `res`. -/
def exit (res : TeeResult) : Drv V α := fun s => some (.error res, s)
/-- A memory access that is undefined behaviour. -/
def fault : Drv V α := fun _ => none
/-- A memory access, undefined when it is `none`. -/
def lift (o : Option α) : Drv V α := fun s => o.map fun a => (.ok a, s)

/-- `for (i = 0; i < n; i++) body(i)`. -/
def forRange (n : Nat) (body : Nat → Drv V Unit) : Drv V Unit :=
  match n with
  | 0 => Drv.pure ()
  | n + 1 => Drv.bind (forRange n body) fun _ => body n

@[simp] theorem pure_apply (a : α) (s) : (Pure.pure a : Drv V α) s = some (.ok a, s) := rfl

@[simp] theorem bind_apply (x : Drv V α) (f : α → Drv V β) (s) :
    (x >>= f) s = match x s with
      | some (.ok a, s) => f a s
      | some (.error e, s) => some (.error e, s)
      | none => none := rfl

theorem bind_of_ok {x : Drv V α} {f : α → Drv V β} {s s' : Ctx V × Regs V} {a : α}
    (hx : x s = some (.ok a, s')) : (x >>= f) s = f a s' := by
  simp [hx]

theorem bind_of_none {x : Drv V α} {f : α → Drv V β} {s : Ctx V × Regs V} (hx : x s = none) :
    (x >>= f) s = none := by
  simp [hx]

@[simp] theorem getCtx_apply (s : Ctx V × Regs V) : getCtx s = some (.ok s.1, s) := rfl
@[simp] theorem setCtx_apply (c : Ctx V) (s) : setCtx c s = some (.ok (), c, s.2) := rfl
@[simp] theorem modifyCtx_apply (f : Ctx V → Ctx V) (s) :
    modifyCtx f s = some (.ok (), f s.1, s.2) := rfl
@[simp] theorem getRegs_apply (s : Ctx V × Regs V) : getRegs s = some (.ok s.2, s) := rfl
@[simp] theorem io_apply (f : Regs V → Regs V) (s) : io f s = some (.ok (), s.1, f s.2) := rfl
@[simp] theorem exit_apply (res : TeeResult) (s) : (exit res : Drv V α) s = some (.error res, s) :=
  rfl
@[simp] theorem fault_apply (s) : (fault : Drv V α) s = none := rfl
@[simp] theorem lift_apply (o : Option α) (s) :
    (lift o : Drv V α) s = o.map fun a => (.ok a, s) := rfl

theorem forRange_succ (n : Nat) (body : Nat → Drv V Unit) :
    forRange (n + 1) body = (forRange n body >>= fun _ => body n) := rfl

/-- The code a call returns: `res` at `exit`, or `TEE_SUCCESS` when it runs to the end. -/
def code {α : Type} : Except TeeResult α → TeeResult
  | .ok _ => .success
  | .error e => e

end Drv

open Drv

/-! ### The engine's status -/

/-- `io_read32(base + _HASH_SR)`. -/
def readSr (E : Engine V) : Drv V (BitVec 32) := do
  let h ← getRegs
  return E.sr h

/-- `wait_end_busy`.  Time is not modelled and a read changes nothing, so the polling loop
ends with the value the check after it reads: the call fails exactly when `BUSY` is set. -/
def waitEndBusy (E : Engine V) : Drv V Unit := do
  if (← readSr E) &&& hashSrBusy ≠ 0 then exit .errorBusy

@[simp] theorem readSr_apply (E : Engine V) (s : Ctx V × Regs V) :
    readSr E s = some (.ok (E.sr s.2), s) := rfl

theorem waitEndBusy_apply (E : Engine V) (s : Ctx V × Regs V) :
    waitEndBusy E s =
      if E.sr s.2 &&& hashSrBusy = 0 then some (.ok (), s) else some (.error .errorBusy, s) := by
  simp only [waitEndBusy, bind_apply, readSr_apply, ne_eq, ite_not]
  split <;> rfl

/-! ### Saving and restoring a context -/

/-- `for (i = 0; i < n; i++) dst[i + off] = src(i)`. -/
def storeRange (dst : List V) (off : Nat) (src : Nat → V) : Nat → Option (List V)
  | 0 => some dst
  | n + 1 => (storeRange dst off src n).bind fun d => storeAt d (n + off) (src n)

/-- `for (i = 0; i < n; i++) io_write32(base + _HASH_CSR(i + first), csr[i + off])`. -/
def restoreRange (csr : List V) (first off : Nat) (h : Regs V) : Nat → Option (Regs V)
  | 0 => some h
  | n + 1 => (restoreRange csr first off h n).bind fun h' =>
      csr[n + off]?.map fun v => h'.writeCsr (n + first) v

/-- `save_context`. -/
def saveContext (E : Engine V) : Drv V Unit := do
  waitEndBusy E
  -- Check that FIFO is empty
  if (← readSr E) &&& hashSrDinis = 0 then exit .errorBadState
  let h ← getRegs
  modifyCtx fun c => { c with imr := h.imr, str := h.str, cr := h.cr }
  let c ← getCtx
  let r := c.saveRegs
  let some csr := c.csr | exit .errorBadState
  -- Save context registers
  let csr ← lift (storeRange csr 0 (fun i => h.csr (i + r.first)) r.nbReg)
  -- Save HMAC context registers
  let csr ← lift (storeRange csr r.nbReg (fun i => h.csr (i + r.hmacFirst)) r.hmacNbReg)
  setCtx { c with csr := some csr }

/-- `restore_context`. -/
def restoreContext (E : Engine V) : Drv V Unit := do
  let c ← getCtx
  io (·.writeImr c.imr)
  io (·.writeStr E c.str)
  io (·.writeCr E (c.cr ||| hashCrInit))
  let r := c.saveRegs
  let some csr := c.csr | exit .errorBadState
  let h ← getRegs
  -- Restore context registers
  let h ← lift (restoreRange csr r.first 0 h r.nbReg)
  -- Restore HMAC context registers
  let h ← lift (restoreRange csr r.hmacFirst r.nbReg h r.hmacNbReg)
  io fun _ => h

/-! ### Allocating and copying a session -/

/-- `stm32_hash_alloc`, for the engine `dev` (`NULL` before the probe, otherwise its
capabilities).  The allocations are taken to succeed. -/
def stm32HashAlloc [Inhabited V] (c : Ctx V) (dev : Option Nat) (mode : Mode) (algo : Algo) :
    TeeResult × Ctx V :=
  match dev with
  | none => (.errorNotImplemented, c)
  | some caps =>
    let c := { c with caps := caps, mode := mode, algo := algo }
    let info := algoInfo algo
    if caps &&& info.caps = 0 then (.errorNotImplemented, c) else
    let c := { c with digestU32 := info.digestU32, blockSize := info.blockSize,
                      saveMode := info.saveMode }
    -- The queue size is block_size + one register at first then block_size.
    let c := { c with remainBuf := some (List.replicate (c.blockSize + 4) 0) }
    (.success, { c with csr := some (List.replicate c.saveRegs.size default) })

/-- `mp13_compat.caps`, the STM32MP13 engine's capabilities. -/
def mp13Caps : Nat :=
  capsSha1 ||| capsSha2_224 ||| capsSha2_256 ||| capsSha2_384 ||| capsSha2_512 ||| capsSha3

/-- `mp15_compat.caps`, the STM32MP15 engine's capabilities. -/
def mp15Caps : Nat := capsMd5 ||| capsSha1 ||| capsSha2_224 ||| capsSha2_256

/-- A session as `calloc` hands it to `stm32_hash_alloc`: every field zero, no buffers. -/
def Ctx.calloc : Ctx V := ⟨0, .hash, .md5, 0, 0, .small, 0, none, 0, 0, 0, 0, none⟩

/-- A successful `stm32_hash_alloc` leaves an allocated session of the mode and algorithm
asked for. -/
theorem stm32HashAlloc_allocated [Inhabited V] {c c' : Ctx V} {dev : Option Nat} {mode : Mode}
    {algo : Algo} (h : stm32HashAlloc c dev mode algo = (.success, c')) :
    c'.Allocated ∧ c'.mode = mode ∧ c'.algo = algo := by
  unfold stm32HashAlloc at h
  split at h
  · cases h
  · simp only at h
    split at h
    · cases h
    · cases h
      exact ⟨⟨rfl, rfl, ⟨_, rfl, by simp⟩, ⟨_, rfl, by simp [Ctx.saveRegs]⟩⟩, rfl, rfl⟩

/-- `stm32_hash_digest_size`. -/
def stm32HashDigestSize (c : Ctx V) : Nat := c.digestU32 * 4

/-- `stm32_hash_deep_copy`. -/
def stm32HashDeepCopy (dst src : Ctx V) : Option (TeeResult × Ctx V) :=
  if dst.mode ≠ src.mode ∨ dst.algo ≠ src.algo then some (.errorBadParameters, dst) else
  -- memcpy(dst, src, sizeof(*dst)), keeping dst's own buffers
  let d := { src with remainBuf := dst.remainBuf, csr := dst.csr }
  do
    let bytes ← readPrefix (← src.remainBuf) d.remainLen
    let buf ← writeAt (← d.remainBuf) 0 bytes
    let words ← readPrefix (← src.csr) d.saveRegs.size
    let csr ← writeAt (← d.csr) 0 words
    some (.success, { d with remainBuf := some buf, csr := some csr })

end Stm32Hash
