/-
The vocabulary of the STM32 HASH driver (`core/drivers/crypto/stm32/stm32_hash.c`).

Everything here is read off the defines at the top of the file: the register bits the
driver sets and tests, the per-algorithm sizes, and the three layouts of context-swap
registers.  Register values are `BitVec 32`, the type of every `io_read32`/`io_write32`.

Memory is modelled as lists of bytes with checked access.  A caller's buffer is exactly the
`len` bytes it hands over, the pending buffer `remain.buf` is the `block_size + 4` bytes
`stm32_hash_alloc` allocates, and the context array `csr` is the `nb_reg + hmac_nb_reg`
words it allocates.  Reading or writing past the end of any of them is undefined behaviour
in C; the model reports it as `none`, so "the driver stays inside its buffers" is "the model
does not return `none`".
-/
import Mathlib.Data.List.Basic
import Mathlib.Data.BitVec

namespace Stm32Hash

/-- The `TEE_Result` codes the driver returns. -/
inductive TeeResult where
  | success
  | errorBadParameters
  | errorBadState
  | errorBusy
  | errorNotImplemented
  | errorOutOfMemory
  deriving DecidableEq, Repr

/-- `enum stm32_hash_mode`. -/
inductive Mode where
  | hash
  | hmac
  deriving DecidableEq, Repr

/-- `enum stm32_hash_algo`: the algorithms `stm32_hash_alloc` and `hw_init` know. -/
inductive Algo where
  | md5 | sha1 | sha224 | sha256 | sha384 | sha512
  | sha3_224 | sha3_256 | sha3_384 | sha3_512
  deriving DecidableEq, Repr

/-- `SAVE_SMALL`, `SAVE_BIG` and `SAVE_SHA3`: which context registers a session saves. -/
inductive SaveMode where
  | small | big | sha3
  deriving DecidableEq, Repr

/-! ### Register bits -/

def hashCrInit : BitVec 32 := 1 <<< 2
def hashCrMode : BitVec 32 := 1 <<< 6
def hashCrDatatypeByte : BitVec 32 := 2 <<< 4
def hashCrLkey : BitVec 32 := 1 <<< 16

def hashCrAlgoMd5 : BitVec 32 := 1 <<< 7
def hashCrAlgoSha1 : BitVec 32 := 0x0 <<< 17
def hashCrAlgoSha224 : BitVec 32 := 0x2 <<< 17
def hashCrAlgoSha256 : BitVec 32 := 0x3 <<< 17
def hashCrAlgoSha256IfMd5 : BitVec 32 := (1 <<< 18) ||| (1 <<< 7)
def hashCrAlgoSha384 : BitVec 32 := 0xC <<< 17
def hashCrAlgoSha512 : BitVec 32 := 0xF <<< 17
def hashCrAlgoSha3_224 : BitVec 32 := 0x4 <<< 17
def hashCrAlgoSha3_256 : BitVec 32 := 0x5 <<< 17
def hashCrAlgoSha3_384 : BitVec 32 := 0x6 <<< 17
def hashCrAlgoSha3_512 : BitVec 32 := 0x7 <<< 17

def hashSrDinis : BitVec 32 := 1 <<< 0
def hashSrDcis : BitVec 32 := 1 <<< 1
def hashSrBusy : BitVec 32 := 1 <<< 3

/-- `GENMASK_32(4, 0)`: the number of valid bits in the last word written. -/
def hashStrNblwMask : BitVec 32 := 0x1F
def hashStrDcal : BitVec 32 := 1 <<< 8

def capsMd5 : Nat := 1 <<< 0
def capsSha1 : Nat := 1 <<< 1
def capsSha2_224 : Nat := 1 <<< 2
def capsSha2_256 : Nat := 1 <<< 3
def capsSha2_384 : Nat := 1 <<< 4
def capsSha2_512 : Nat := 1 <<< 5
def capsSha3 : Nat := 1 <<< 6

/-! ### Sizes

`stm32_hash_alloc`'s switch has one case per algorithm, all of one shape: a capability bit
to check, then the digest size, block size and save mode to record.  `algoInfo` is that
switch as a table, with the defines' values.
-/

/-- One case of `stm32_hash_alloc`'s switch. -/
structure AlgoInfo where
  caps : Nat
  digestU32 : Nat
  blockSize : Nat
  saveMode : SaveMode

def algoInfo : Algo → AlgoInfo
  | .md5 => ⟨capsMd5, 4, 64, .small⟩
  | .sha1 => ⟨capsSha1, 5, 64, .small⟩
  | .sha224 => ⟨capsSha2_224, 7, 64, .small⟩
  | .sha384 => ⟨capsSha2_384, 12, 128, .big⟩
  | .sha512 => ⟨capsSha2_512, 16, 128, .big⟩
  | .sha3_224 => ⟨capsSha3, 7, 144, .sha3⟩
  | .sha3_256 => ⟨capsSha3, 8, 136, .sha3⟩
  | .sha3_384 => ⟨capsSha3, 12, 104, .sha3⟩
  | .sha3_512 => ⟨capsSha3, 16, 72, .sha3⟩
  | .sha256 => ⟨capsSha2_256, 8, 64, .small⟩

/-- Every block size is a whole number of words, and more than one. -/
theorem algoInfo_blockSize (a : Algo) :
    (algoInfo a).blockSize % 4 = 0 ∧ 8 ≤ (algoInfo a).blockSize := by
  cases a <;> decide

/-- The context registers a layout saves: `nb_reg` of them from `first`, and in HMAC mode
`hmac_nb_reg` more from `hmac_first`. -/
structure SaveRegs where
  nbReg : Nat
  first : Nat
  hmacNbReg : Nat
  hmacFirst : Nat
  deriving DecidableEq, Repr

/-- `get_save_registers`.  Outside HMAC mode the two HMAC outputs keep the zeros every
caller initialises them with. -/
def getSaveRegisters (saveMode : SaveMode) (mode : Mode) : SaveRegs :=
  match saveMode, mode with
  | .small, .hmac => ⟨22, 0, 16, 38⟩
  | .small, .hash => ⟨22, 0, 0, 0⟩
  | .big, .hmac => ⟨91, 0, 12, 91⟩
  | .big, .hash => ⟨91, 0, 0, 0⟩
  | .sha3, .hmac => ⟨72, 0, 72, 16⟩
  | .sha3, .hash => ⟨72, 0, 0, 0⟩

/-- The number of words a session's `csr` array holds: `nb_reg + hmac_nb_reg`. -/
def SaveRegs.size (r : SaveRegs) : Nat := r.nbReg + r.hmacNbReg

/-- Whether context register `j` is one a layout saves. -/
def SaveRegs.Saves (r : SaveRegs) (j : Nat) : Prop :=
  (r.first ≤ j ∧ j < r.first + r.nbReg) ∨ (r.hmacFirst ≤ j ∧ j < r.hmacFirst + r.hmacNbReg)

instance (r : SaveRegs) (j : Nat) : Decidable (r.Saves j) := by
  unfold SaveRegs.Saves; infer_instance

/-! ### Words and buffers -/

/-- A 32-bit value given by its four bytes in memory order.  Every word the driver writes to
`HASH_DIN` is put together with `memcpy`, so its bytes are all that matters of it. -/
structure Word where
  b0 : UInt8
  b1 : UInt8
  b2 : UInt8
  b3 : UInt8
  deriving DecidableEq, Repr

def Word.bytes (w : Word) : List UInt8 := [w.b0, w.b1, w.b2, w.b3]

/-- The word in the first four bytes of a buffer, if it has four. -/
def Word.ofBytes? : List UInt8 → Option Word
  | b0 :: b1 :: b2 :: b3 :: _ => some ⟨b0, b1, b2, b3⟩
  | _ => none

/-- `tmp_buf = 0; memcpy(&tmp_buf, key, len)` for `len < 4`. -/
def Word.ofPrefix (bs : List UInt8) : Word :=
  ⟨bs.getD 0 0, bs.getD 1 0, bs.getD 2 0, bs.getD 3 0⟩

@[simp] theorem Word.length_bytes (w : Word) : w.bytes.length = 4 := rfl

theorem Word.ofBytes?_eq_some {bs : List UInt8} {w : Word} (h : Word.ofBytes? bs = some w) :
    w.bytes = bs.take 4 := by
  match bs, h with
  | _ :: _ :: _ :: _ :: _, h => cases h; rfl

theorem Word.ofBytes?_isSome {bs : List UInt8} (h : 4 ≤ bs.length) :
    ∃ w, Word.ofBytes? bs = some w := by
  match bs, h with
  | _ :: _ :: _ :: _ :: _, _ => exact ⟨_, rfl⟩

/-- The source side of a `memcpy` of `n` elements: undefined past the end of `src`. -/
def readPrefix {α : Type} (src : List α) (n : Nat) : Option (List α) :=
  if n ≤ src.length then some (src.take n) else none

/-- The destination side of a `memcpy` to `dst + off`: undefined past the end of `dst`. -/
def writeAt {α : Type} (dst : List α) (off : Nat) (xs : List α) : Option (List α) :=
  if off + xs.length ≤ dst.length then
    some (dst.take off ++ xs ++ dst.drop (off + xs.length))
  else none

/-- `dst[i] = v` on an array of `dst.length` elements. -/
def storeAt {α : Type} (dst : List α) (i : Nat) (v : α) : Option (List α) :=
  if i < dst.length then some (dst.set i v) else none

theorem readPrefix_of_le {α : Type} {src : List α} {n : Nat} (h : n ≤ src.length) :
    readPrefix src n = some (src.take n) := if_pos h

theorem writeAt_of_le {α : Type} {dst : List α} {off : Nat} {xs : List α}
    (h : off + xs.length ≤ dst.length) :
    writeAt dst off xs = some (dst.take off ++ xs ++ dst.drop (off + xs.length)) := if_pos h

theorem length_of_writeAt {α : Type} {dst d : List α} {off : Nat} {xs : List α}
    (h : writeAt dst off xs = some d) : d.length = dst.length := by
  unfold writeAt at h
  split at h
  · cases h; simp; omega
  · cases h

/-- `ROUNDUP(x, sizeof(uint32_t))`. -/
def roundup4 (x : Nat) : Nat := (x + 3) / 4 * 4

end Stm32Hash
