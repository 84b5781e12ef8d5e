/-
The streaming calls: `stm32_hash_init`, `stm32_hash_update` and `stm32_hash_final`, with
the helpers they share.

`stm32_hash_update` is cut along the blocks of its body, each a definition of its own:
the buffer-only branch (`appendRemain`), the flush of the bytes kept from earlier calls
(`flushRemain`), the FIFO loop (`fifoLoop`) and the copy of the leftover bytes
(`keepRemain`).  The FIFO loop recurses on the caller's buffer four bytes at a time; when
its condition holds with fewer than four bytes left, the `memcpy` of the next word reads
past the buffer, and the model stops there with `none`.
-/
import Stm32Hash.Context

namespace Stm32Hash

open Drv

variable {V : Type}

/-! ### Writing to the FIFO -/

/-- `hash_write_data`. -/
def hashWriteData (E : Engine V) (w : Word) : Drv V Unit := do
  io (·.writeDin E w)
  waitEndBusy E

/-- `c->remain.buf[i]`, the `i`-th word of the pending buffer. -/
def remainWord (i : Nat) : Drv V Word := do
  let some buf := (← getCtx).remainBuf | fault
  lift (Word.ofBytes? (buf.drop (4 * i)))

/-- `c->remain.buf[i] = 0`. -/
def zeroRemainWord (i : Nat) : Drv V Unit := do
  let c ← getCtx
  let some buf := c.remainBuf | fault
  let buf ← lift (writeAt buf (4 * i) [0, 0, 0, 0])
  setCtx { c with remainBuf := some buf }

/-- The loop both `stm32_hash_update` and `stm32_hash_final` flush the pending buffer with:
write each of its first `n` words, then clear it. -/
def flushWords (E : Engine V) (n : Nat) : Drv V Unit :=
  forRange n fun i => do
    hashWriteData E (← remainWord i)
    zeroRemainWord i

/-- `write_key`: the key's length modulo four in `NBLW`, its words, then `DCAL`. -/
def writeKey (E : Engine V) (key : List UInt8) : Drv V Unit := do
  io (·.clrsetbitsStr E hashStrNblwMask (BitVec.ofNat 32 (8 * (key.length % 4))))
  forRange (key.length / 4) fun i => do
    hashWriteData E (← lift (Word.ofBytes? (key.drop (4 * i))))
  if key.length % 4 ≠ 0 then
    hashWriteData E (Word.ofPrefix (key.drop (4 * (key.length / 4))))
  io (·.setbitsStr E hashStrDcal)

/-- The algorithm field `hw_init` puts in `HASH_CR`. -/
def algoCr (caps : Nat) : Algo → BitVec 32
  | .md5 => hashCrAlgoMd5
  | .sha1 => hashCrAlgoSha1
  | .sha224 => hashCrAlgoSha224
  | .sha384 => hashCrAlgoSha384
  | .sha512 => hashCrAlgoSha512
  | .sha3_224 => hashCrAlgoSha3_224
  | .sha3_256 => hashCrAlgoSha3_256
  | .sha3_384 => hashCrAlgoSha3_384
  | .sha3_512 => hashCrAlgoSha3_512
  | .sha256 => if caps &&& capsMd5 ≠ 0 then hashCrAlgoSha256IfMd5 else hashCrAlgoSha256

/-- `hw_init`. -/
def hwInit (E : Engine V) (key : List UInt8) : Drv V Unit := do
  let c ← getCtx
  let regCr := hashCrInit ||| hashCrDatatypeByte ||| algoCr c.caps c.algo
  if c.mode = .hmac then
    let regCr := regCr ||| hashCrMode ||| (if key.length > c.blockSize then hashCrLkey else 0)
    io (·.writeCr E regCr)
    writeKey E key
  else
    io (·.writeCr E regCr)

/-- `wait_digest_ready`, like `wait_end_busy` one read of `HASH_SR`. -/
def waitDigestReady (E : Engine V) : Drv V Unit := do
  if (← readSr E) &&& hashSrDcis ≠ hashSrDcis then exit .errorBusy

/-- The bytes `memcpy` stores for `FROMBE32(v)` on the little-endian core: `v`'s bytes, most
significant first. -/
def beBytes (v : BitVec 32) : List UInt8 :=
  [24, 16, 8, 0].map fun k => UInt8.ofNat (v >>> k).toNat

/-- `hash_get_digest`: the digest bytes it stores. -/
def hashGetDigest (E : Engine V) : Drv V (List UInt8) := do
  waitDigestReady E
  let c ← getCtx
  let h ← getRegs
  return (List.range c.digestU32).flatMap fun i => beBytes (E.hr h i)

/-! ### `stm32_hash_update` -/

/-- The buffer-only branch: the new bytes go after the pending ones. -/
def appendRemain (buffer : List UInt8) : Drv V Unit := do
  let c ← getCtx
  let some buf := c.remainBuf | exit .errorBadState
  let buf ← lift (writeAt buf c.remainLen buffer)
  setCtx { c with remainBuf := some buf, remainLen := c.remainLen + buffer.length }

/-- First write data saved in previous update: borrow the bytes that complete the pending
buffer's last word, flush it, and hand back what is left of the caller's buffer. -/
def flushRemain (E : Engine V) (buffer : List UInt8) : Drv V (List UInt8) := do
  let c ← getCtx
  if c.remainLen = 0 then return buffer
  let some buf := c.remainBuf | exit .errorBadState
  -- Add bytes needed to align saved data
  let align := roundup4 c.remainLen - c.remainLen
  let buf ← lift (writeAt buf c.remainLen (← lift (readPrefix buffer align)))
  setCtx { c with remainBuf := some buf, remainLen := c.remainLen + align }
  flushWords E ((c.remainLen + align) / 4)
  -- No more saved data
  modifyCtx fun c => { c with remainLen := 0 }
  return buffer.drop align

/-- The FIFO loop's condition,
`len >= c->queue_size || !(io_read32(base + _HASH_SR) & _HASH_SR_DINIS)`. -/
def fifoWanted (E : Engine V) (queueSize len : Nat) : Drv V Bool := do
  if len ≥ queueSize then return true
  return (← readSr E) &&& hashSrDinis = 0

/-- The FIFO loop: one word of the caller's buffer per turn, `memcpy`'d from it. -/
def fifoLoop (E : Engine V) (queueSize : Nat) (buffer : List UInt8) : Drv V (List UInt8) := do
  if ← fifoWanted E queueSize buffer.length then
    match buffer with
    | b0 :: b1 :: b2 :: b3 :: rest =>
      hashWriteData E ⟨b0, b1, b2, b3⟩
      fifoLoop E queueSize rest
    | _ => fault
  else
    return buffer

/-- The leftover bytes become the pending buffer. -/
def keepRemain (buffer : List UInt8) : Drv V Unit := do
  let c ← getCtx
  -- assert(c->remain.len == 0)
  if c.remainLen ≠ 0 then fault
  let some buf := c.remainBuf | exit .errorBadState
  let buf ← lift (writeAt buf 0 buffer)
  setCtx { c with remainBuf := some buf, remainLen := buffer.length }

/-- `stm32_hash_update`, with `len` the length of `buffer`. -/
def stm32HashUpdate (E : Engine V) (buffer : List UInt8) : Drv V Unit := do
  if buffer.length = 0 then return
  restoreContext E
  let c ← getCtx
  -- We cannot fill the fifo
  if c.remainLen + buffer.length < c.queueSize then
    appendRemain buffer
    -- We don't need to save status as we didn't change IP internal state.
    exit .success
  let buffer ← flushRemain E buffer
  let c ← getCtx
  -- We will fill the queue for the first time, now queue flush will happen exactly after
  -- block_size bytes.
  let nextQueueSize := if buffer.length ≥ c.queueSize then c.blockSize else c.queueSize
  let buffer ← fifoLoop E c.queueSize buffer
  modifyCtx fun c => { c with queueSize := nextQueueSize }
  if buffer.length ≠ 0 then keepRemain buffer
  saveContext E

/-! ### `stm32_hash_final` and `stm32_hash_init` -/

/-- `stm32_hash_final`: its value is the digest it stores. -/
def stm32HashFinal (E : Engine V) (key : List UInt8) : Drv V (List UInt8) := do
  if key.length = 0 ∧ (← getCtx).mode ≠ .hash then exit .errorBadState
  restoreContext E
  let c ← getCtx
  if c.remainLen ≠ 0 then
    if c.remainBuf.isNone then exit .errorBadState
    flushWords E ((c.remainLen + 3) / 4)
    io (·.clrsetbitsStr E hashStrNblwMask (BitVec.ofNat 32 (8 * (c.remainLen % 4))))
    -- No more saved data
    modifyCtx fun c => { c with remainLen := 0 }
  else
    io (·.clrbitsStr E hashStrNblwMask)
  io (·.setbitsStr E hashStrDcal)
  if c.mode = .hmac then writeKey E key
  hashGetDigest E

/-- `stm32_hash_init`. -/
def stm32HashInit (E : Engine V) (key : List UInt8) : Drv V Unit := do
  if key.length = 0 ∧ (← getCtx).mode ≠ .hash then exit .errorBadParameters
  let c ← getCtx
  let some buf := c.remainBuf | fault
  -- First queue is block_size + one register
  let buf ← lift (writeAt buf 0 (List.replicate (c.blockSize + 4) 0))
  setCtx { c with remainBuf := some buf, remainLen := 0, queueSize := c.blockSize + 4 }
  hwInit E key
  saveContext E

end Stm32Hash
