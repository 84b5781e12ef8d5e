/-
Runs of `stm32_hash_init`, `stm32_hash_update` and `stm32_hash_final` under the FIFO model.

`stm32_hash_update` decides the next `queue_size` before its FIFO loop, from the length left
after the flush of the pending bytes: `B` once that length reaches the current queue size.
The loop itself still compares with the current queue size, `B + 4` the first time, and
stops as soon as fewer bytes are left and `DINIS` is set.  When the first update that
crosses the first block brings `2B + 4 + j` bytes with `0 < j < 4`, the loop writes the
`B/4 + 1` words that fill the first block, finds `B + j` bytes left and `DINIS` set, and the
call keeps `B + j` bytes with `queue_size = B`.  Pending bytes are then not below the queue
size, and their last word is incomplete.  The next update of fewer than `4 - j` bytes goes
past the buffer-only branch (`B + j + len ≥ B`) and completes that word with
`ROUNDUP(B + j, 4) - (B + j) = 4 - j` bytes `memcpy`'d from its own buffer, which is
shorter: undefined behaviour, and `len -= align` wraps around.

So the invariant `remain.len < queue_size` fails after a successful update, and the outcome
of a message depends on how it is cut into updates: in one call it is hashed, cut after
`2B + 5` bytes it is not.
-/
import Stm32Hash.FifoModel

namespace Stm32Hash

/-! ### An update after the first fill -/

/-- **For every algorithm in hash mode, after `stm32_hash_init` an update of `2B + 5` bytes
succeeds and leaves `remain.len = B + 1` with `queue_size = B`; an update of one more byte
then reads past its buffer.** -/
theorem update_after_first_fill_overreads (H : BitVec 32 → List (List UInt8) → Nat → BitVec 32)
    {c : Ctx Core} (hc : c.Allocated)
    (hmode : c.mode = .hash) (h : Regs Core) {m : List UInt8}
    (hm : m.length = 2 * c.blockSize + 5) (b : UInt8) :
    ∃ c₁ h₁ c₂ h₂,
      stm32HashInit (fifoEngine c.blockSize H) [] (c, h) = some (.ok (), c₁, h₁) ∧
      stm32HashUpdate (fifoEngine c.blockSize H) m (c₁, h₁) = some (.ok (), c₂, h₂) ∧
      c₂.remainLen = c.blockSize + 1 ∧ c₂.queueSize = c.blockSize ∧
      stm32HashUpdate (fifoEngine c.blockSize H) [b] (c₂, h₂) = none := by
  have hB := hc.blockSize_words
  obtain ⟨c₁, h₁, hinit, hc₁, -, -, hB₁, -, hr₁, hq₁, -, hk₁⟩ :=
    stm32HashInit_fifo c.blockSize H hc (.inr hmode) h
  obtain ⟨c₂, h₂, hupd, hc₂, -, -, -, hr₂, hq₂, -, -⟩ := stm32HashUpdate_first_fill H hc₁ hr₁
    (by omega) hk₁ h₁ (show m.length = 2 * c₁.blockSize + 4 + 1 by omega) (by omega)
  rw [hB₁] at hupd hr₂ hq₂
  refine ⟨c₁, h₁, c₂, h₂, hinit, hupd, hr₂, hq₂, ?_⟩
  apply stm32HashUpdate_of_short_align _ hc₂ (by omega) (by simp) (by simp; omega)
  rw [hr₂]; unfold roundup4; simp; omega

/-- The SHA-256 session of an STM32MP15 engine. -/
def mp15Sha256 : Ctx Core := (stm32HashAlloc Ctx.calloc (some mp15Caps) .hash .sha256).2

theorem mp15Sha256_allocated : mp15Sha256.Allocated :=
  (stm32HashAlloc_allocated (show stm32HashAlloc Ctx.calloc (some mp15Caps) .hash .sha256 =
    (.success, mp15Sha256) from rfl)).1

theorem mp15Sha256_wf : mp15Sha256.WF := ⟨mp15Sha256_allocated, by decide, by decide⟩

/-- An engine right after reset. -/
def resetRegs : Regs Core := ⟨0, 0, 0, fun _ => default, by decide⟩

/-- A digest that reads 0 whatever the input, enough where only the run matters. -/
def zeroDigest : BitVec 32 → List (List UInt8) → Nat → BitVec 32 := fun _ _ _ => 0

/-- SHA-256: an update of 133 bytes after `stm32_hash_init`, then one of 1 byte. -/
theorem mp15Sha256_overread : mp15Sha256.Allocated ∧ mp15Sha256.mode = .hash ∧
    (List.replicate 133 (0 : UInt8)).length = 2 * mp15Sha256.blockSize + 5 ∧
    ∃ c₁ h₁ c₂ h₂,
      stm32HashInit (fifoEngine 64 zeroDigest) [] (mp15Sha256, resetRegs) = some (.ok (), c₁, h₁) ∧
      stm32HashUpdate (fifoEngine 64 zeroDigest) (List.replicate 133 0) (c₁, h₁) =
        some (.ok (), c₂, h₂) ∧
      c₂.remainLen = 65 ∧ c₂.queueSize = 64 ∧
      stm32HashUpdate (fifoEngine 64 zeroDigest) [0] (c₂, h₂) = none :=
  have hm : (List.replicate 133 (0 : UInt8)).length = 2 * mp15Sha256.blockSize + 5 := by
    rw [List.length_replicate]; rfl
  ⟨mp15Sha256_allocated, rfl, hm,
    update_after_first_fill_overreads zeroDigest mp15Sha256_allocated rfl resetRegs hm 0⟩

/-! ### The outcome depends on the cut -/

/-- **For every algorithm in hash mode and every message of `2B + 6` bytes: sent in one
update, `stm32_hash_final` stores the digest of exactly that message; cut after `2B + 5`
bytes, the second update reads past its buffer.** -/
theorem chunking_changes_outcome (H : BitVec 32 → List (List UInt8) → Nat → BitVec 32)
    {c : Ctx Core} (hc : c.Allocated) (hmode : c.mode = .hash) (h : Regs Core) {m : List UInt8}
    (hm : m.length = 2 * c.blockSize + 6) :
    ∃ c₁ h₁, stm32HashInit (fifoEngine c.blockSize H) [] (c, h) = some (.ok (), c₁, h₁) ∧
      (∃ c₂ h₂ c₃ h₃,
        stm32HashUpdate (fifoEngine c.blockSize H) m (c₁, h₁) = some (.ok (), c₂, h₂) ∧
        stm32HashFinal (fifoEngine c.blockSize H) [] (c₂, h₂) =
          some (.ok (digestOf (fifoEngine c.blockSize H) c₂ h₃), c₃, h₃) ∧
        (h₃.csr 0).input = [m]) ∧
      ∃ c₂ h₂,
        stm32HashUpdate (fifoEngine c.blockSize H) (m.take (2 * c.blockSize + 5)) (c₁, h₁) =
          some (.ok (), c₂, h₂) ∧
        stm32HashUpdate (fifoEngine c.blockSize H) (m.drop (2 * c.blockSize + 5)) (c₂, h₂) =
          none := by
  have hB := hc.blockSize_words
  obtain ⟨c₁, h₁, hinit, hc₁, hm₁, -, hB₁, -, hr₁, hq₁, -, hk₁⟩ :=
    stm32HashInit_fifo c.blockSize H hc (.inr hmode) h
  refine ⟨c₁, h₁, hinit, ?whole, ?cut⟩
  case whole =>
    obtain ⟨c₂, h₂, hupd, hc₂, hm₂, -, hB₂, hr₂, -, hk₂, hbuf₂⟩ := stm32HashUpdate_first_fill H
      hc₁ hr₁ (by omega) hk₁ h₁ (show m.length = 2 * c₁.blockSize + 4 + 2 by omega) (by omega)
    obtain ⟨c₃, h₃, hfin, -, hin⟩ := stm32HashFinal_fifo c.blockSize H hc₂
      (.inr (by rw [hm₂, hm₁, hmode])) (by omega) hk₂ h₂
    rw [hB₁] at hupd
    refine ⟨c₂, h₂, c₃, h₃, hupd, hfin, ?_⟩
    have hh : c.mode ≠ .hmac := by rw [hmode]; decide
    rw [hin, hr₂, hbuf₂, flatMap_bytes_wordsOf, List.take_take, List.length_take, hm₂, hm₁]
    simp only [Core.input, if_neg hh, List.map_nil, List.nil_append, List.append_nil,
      List.cons.injEq, and_true]
    rw [show 4 * (min (c₁.blockSize + 4) m.length / 4) = c₁.blockSize + 4 by omega,
      Nat.min_self, List.take_append_drop]
  case cut =>
    obtain ⟨c₂, h₂, hupd, hc₂, -, -, -, hr₂, hq₂, -, -⟩ := stm32HashUpdate_first_fill H hc₁ hr₁
      (by omega) hk₁ h₁ (show (m.take (2 * c.blockSize + 5)).length =
        2 * c₁.blockSize + 4 + 1 by simp; omega) (by omega)
    rw [hB₁] at hupd hr₂ hq₂
    refine ⟨c₂, h₂, hupd, stm32HashUpdate_of_short_align _ hc₂ (by omega) (by simp; omega)
      (by simp; omega) (by rw [hr₂]; unfold roundup4; simp; omega) h₂⟩

/-- SHA-256: a message of 134 bytes, in one update and cut after 133 bytes. -/
theorem mp15Sha256_chunking : mp15Sha256.Allocated ∧ mp15Sha256.mode = .hash ∧
    (List.replicate 134 (0 : UInt8)).length = 2 * mp15Sha256.blockSize + 6 ∧
    ∃ c₁ h₁,
      stm32HashInit (fifoEngine 64 zeroDigest) [] (mp15Sha256, resetRegs) = some (.ok (), c₁, h₁) ∧
      (∃ c₂ h₂ c₃ h₃,
        stm32HashUpdate (fifoEngine 64 zeroDigest) (List.replicate 134 0) (c₁, h₁) =
          some (.ok (), c₂, h₂) ∧
        stm32HashFinal (fifoEngine 64 zeroDigest) [] (c₂, h₂) =
          some (.ok (digestOf (fifoEngine 64 zeroDigest) c₂ h₃), c₃, h₃) ∧
        (h₃.csr 0).input = [List.replicate 134 0]) ∧
      ∃ c₂ h₂,
        stm32HashUpdate (fifoEngine 64 zeroDigest) ((List.replicate 134 0).take 133) (c₁, h₁) =
          some (.ok (), c₂, h₂) ∧
        stm32HashUpdate (fifoEngine 64 zeroDigest) ((List.replicate 134 0).drop 133) (c₂, h₂) =
          none :=
  have hm : (List.replicate 134 (0 : UInt8)).length = 2 * mp15Sha256.blockSize + 6 := by
    rw [List.length_replicate]; rfl
  ⟨mp15Sha256_allocated, rfl, hm,
    chunking_changes_outcome zeroDigest mp15Sha256_allocated rfl resetRegs hm⟩

end Stm32Hash
