/-
The FIFO model of the engine.

The streaming properties fix how the input FIFO answers the driver: with `B` the block
size and `w` the number of words written to `HASH_DIN` for the current message, `DINIS`
reads 1 exactly when `w = 0` or `w = B/4 + 1 + k * (B/4)` for some `k`.  The first block is
taken in once one word past it has arrived, every later block as soon as it is complete.
`fifoEngine` is that engine.  Its working state lives in context register 0: the words of
the message in progress, and the messages `DCAL` closed, each with the `NBLW` it was closed
with.  `INIT` clears it, `DCAL` closes the message in progress (so `w` counts from the last
`INIT` or `DCAL`: `write_key` ends the key with `DCAL`, and the engine then waits for the
message).  `BUSY` never reads 1 and `DCIS` always does, so no wait times out.  `HASH_HR`
shows a digest `H` of `HASH_CR` and of the valid input, left open.

Register 0 is saved in every layout, into slot 0 of `c->csr`, so a session parked between
calls carries its core there (`Ctx.savedCore`) and `restore_context` brings it back.
-/
import Stm32Hash.DriverSpec

namespace Stm32Hash

open Drv

/-! ### The engine -/

/-- The engine's working state: the words of the message in progress, and the messages
`DCAL` closed, each with the `NBLW` it was closed with. -/
structure Core where
  cur : List Word
  msgs : List (List Word × BitVec 32)
  deriving DecidableEq, Repr

instance : Inhabited Core := ⟨⟨[], []⟩⟩

@[simp] theorem Core.default_cur : (default : Core).cur = [] := rfl
@[simp] theorem Core.default_msgs : (default : Core).msgs = [] := rfl

/-- `DINIS` after `w` words of a message, for block size `B`. -/
def dinis (B w : Nat) : Bool :=
  w = 0 || (B / 4 + 1 ≤ w && (w - (B / 4 + 1)) % (B / 4) = 0)

@[simp] theorem dinis_zero (B : Nat) : dinis B 0 = true := rfl

/-- The valid bytes of a message closed with `NBLW = nblw`: the bytes of its words, less
those of the last word that `NBLW` marks invalid (`NBLW = 0` marks the whole word valid). -/
def validBytes (ws : List Word) (nblw : BitVec 32) : List UInt8 :=
  (ws.flatMap Word.bytes).take (4 * ws.length - (4 - nblw.toNat / 8) % 4)

/-- The input the engine took: the valid bytes of every closed message. -/
def Core.input (k : Core) : List (List UInt8) := k.msgs.map fun m => validBytes m.1 m.2

/-- The context registers with register 0 replaced. -/
def Regs.withCore (h : Regs Core) (k : Core) : Nat → Core := fun j => if j = 0 then k else h.csr j

/-- The FIFO model for block size `B`, with digest `H` of `HASH_CR` and of the valid input. -/
def fifoEngine (B : Nat) (H : BitVec 32 → List (List UInt8) → Nat → BitVec 32) :
    Engine Core where
  din h w := h.withCore ⟨(h.csr 0).cur ++ [w], (h.csr 0).msgs⟩
  dcal h := h.withCore ⟨[], (h.csr 0).msgs ++ [((h.csr 0).cur, h.str &&& hashStrNblwMask)]⟩
  init h := h.withCore default
  sr h := if dinis B (h.csr 0).cur.length then hashSrDinis ||| hashSrDcis else hashSrDcis
  hr h := H h.cr (h.csr 0).input

/-- The core a parked session saved, in slot 0 of its `csr` array. -/
def Ctx.savedCore (c : Ctx Core) : Option Core := c.csr.bind List.head?

section Engine

variable {B : Nat} {H : BitVec 32 → List (List UInt8) → Nat → BitVec 32}

@[simp] theorem fifo_writeDin_core (h : Regs Core) (w : Word) :
    (h.writeDin (fifoEngine B H) w).csr 0 = ⟨(h.csr 0).cur ++ [w], (h.csr 0).msgs⟩ := rfl

@[simp] theorem fifo_feed_core (h : Regs Core) (ws : List Word) :
    (h.feed (fifoEngine B H) ws).csr 0 = ⟨(h.csr 0).cur ++ ws, (h.csr 0).msgs⟩ := by
  induction ws generalizing h <;> simp [*]

theorem fifoEngine_neverBusy : (fifoEngine B H).NeverBusy := by
  intro h
  simp only [fifoEngine]
  split <;> decide

theorem fifoEngine_dcis (h : Regs Core) :
    (fifoEngine B H).sr h &&& hashSrDcis = hashSrDcis := by
  simp only [fifoEngine]
  split <;> decide

/-- `DINIS` reads the model's count of the message in progress. -/
theorem fifoEngine_dinis (h : Regs Core) :
    (fifoEngine B H).sr h &&& hashSrDinis = 0 ↔ dinis B (h.csr 0).cur.length = false := by
  simp only [fifoEngine]
  split <;> simp_all <;> decide

/-- `INIT` in `HASH_CR` clears the core. -/
theorem fifo_writeCr_core (h : Regs Core) {v : BitVec 32} (hv : v &&& hashCrInit ≠ 0) :
    (h.writeCr (fifoEngine B H) v).csr 0 = default := by
  unfold Regs.writeCr
  rw [if_neg hv]
  rfl

/-- A write to `HASH_STR` without `DCAL` leaves the core alone; with it, the message in
progress is closed with the `NBLW` just written. -/
theorem fifo_writeStr_core (h : Regs Core) (v : BitVec 32) :
    (h.writeStr (fifoEngine B H) v).csr 0 = if v &&& hashStrDcal = 0 then h.csr 0 else
      ⟨[], (h.csr 0).msgs ++ [((h.csr 0).cur, v &&& ~~~hashStrDcal &&& hashStrNblwMask)]⟩ := by
  unfold Regs.writeStr
  split <;> simp [fifoEngine, Regs.withCore]

@[simp] theorem fifo_setbitsStr_core (h : Regs Core) :
    (h.setbitsStr (fifoEngine B H) hashStrDcal).csr 0 =
      ⟨[], (h.csr 0).msgs ++ [((h.csr 0).cur, h.str &&& hashStrNblwMask)]⟩ := by
  rw [Regs.setbitsStr_dcal]; rfl

/-- `write_key` closes a message of the key's words, with `NBLW` of the key's length. -/
@[simp] theorem fifo_keyed_core (h : Regs Core) (key : List UInt8) :
    (h.keyed (fifoEngine B H) key).csr 0 =
      ⟨[], (h.csr 0).msgs ++
        [((h.csr 0).cur ++ keyWords key, BitVec.ofNat 32 (8 * (key.length % 4)))]⟩ := by
  have hn := nblw_fits (Nat.mod_lt key.length (by decide : 0 < 4))
  simp [Regs.keyed, hn.2, Regs.clrsetbitsStr_nblw _ _ hn.1]

/-- What `stm32_hash_final` leaves in the core: the message in progress, with the pending
buffer's words after it, closed with `NBLW = 8 * (remain.len % 4)`; in HMAC mode a message
of the key's words after it. -/
theorem finalRegs_core (c : Ctx Core) (buf key : List UInt8) (h : Regs Core) :
    (finalRegs (fifoEngine B H) c buf key h).csr 0 =
      let k : Core := ⟨[], (h.csr 0).msgs ++
        [((h.csr 0).cur ++ wordsOf (buf.take (roundup4 c.remainLen)),
          BitVec.ofNat 32 (8 * (c.remainLen % 4)))]⟩
      if c.mode = .hmac then
        ⟨[], k.msgs ++ [(keyWords key, BitVec.ofNat 32 (8 * (key.length % 4)))]⟩
      else k := by
  have hn := nblw_fits (Nat.mod_lt c.remainLen (by decide : 0 < 4))
  by_cases hr : c.remainLen = 0 <;> by_cases hm : c.mode = .hmac
  all_goals first
    | simp [finalRegs, hr, hm, Regs.clrbitsStr_eq, Regs.clrsetbitsStr_nblw, roundup4]; done
    | simp [finalRegs, hr, hm, hn.2, Regs.clrsetbitsStr_nblw _ _ hn.1]

end Engine

/-! ### Valid input

`NBLW` masks the bytes of the last word that `stm32_hash_final` padded the pending buffer's
last word with: what the engine takes is the bytes of the message in progress, then exactly
the pending bytes.
-/

theorem length_flatMap_bytes (ws : List Word) : (ws.flatMap Word.bytes).length = 4 * ws.length := by
  induction ws with
  | nil => rfl
  | cons w ws ih => simp [ih]; omega

theorem validBytes_flush (cur : List Word) {buf : List UInt8} {r : Nat}
    (hr : roundup4 r ≤ buf.length) :
    validBytes (cur ++ wordsOf (buf.take (roundup4 r))) (BitVec.ofNat 32 (8 * (r % 4))) =
      cur.flatMap Word.bytes ++ buf.take r := by
  have hup : r ≤ roundup4 r ∧ roundup4 r % 4 = 0 := by unfold roundup4; omega
  have hbytes : (wordsOf (buf.take (roundup4 r))).flatMap Word.bytes = buf.take (roundup4 r) := by
    rw [flatMap_bytes_wordsOf, List.take_take, List.length_take, Nat.min_eq_left hr]
    congr 1; omega
  have hlen : (wordsOf (buf.take (roundup4 r))).length = roundup4 r / 4 := by
    rw [length_wordsOf, List.length_take, Nat.min_eq_left hr]
  have hnblw : (BitVec.ofNat 32 (8 * (r % 4))).toNat / 8 = r % 4 := by
    rw [BitVec.toNat_ofNat, Nat.mod_eq_of_lt (by omega)]; omega
  unfold validBytes
  rw [List.flatMap_append, hbytes, List.length_append, hlen, hnblw,
    show 4 * (cur.length + roundup4 r / 4) - (4 - r % 4) % 4 = 4 * cur.length + r by
      unfold roundup4 at hup ⊢; omega,
    List.take_append_eq_append_take, List.take_of_length_le (by rw [length_flatMap_bytes]; omega),
    length_flatMap_bytes, Nat.add_sub_cancel_left, List.take_take, Nat.min_eq_left hup.1]

/-- A word completed with zero bytes, as `write_key` builds the key's last word. -/
theorem wordsOf_pad {t : List UInt8} (h0 : t.length ≠ 0) (h4 : t.length < 4) :
    wordsOf (t ++ List.replicate (4 - t.length) 0) = [Word.ofPrefix t] := by
  match t, h0, h4 with
  | [_], _, _ | [_, _], _, _ | [_, _, _], _, _ => rfl

/-- The words `write_key` writes are the key's bytes padded with zeros to a whole word. -/
theorem keyWords_eq (key : List UInt8) :
    keyWords key = wordsOf ((key ++ List.replicate 3 0).take (roundup4 key.length)) := by
  unfold keyWords roundup4
  split_ifs with hk
  · rw [List.append_nil, show (key.length + 3) / 4 * 4 = key.length by omega, List.take_left]
  · have ht : (key.drop (4 * (key.length / 4))).length = key.length % 4 := by simp; omega
    have hpad : (key ++ List.replicate 3 0).take ((key.length + 3) / 4 * 4) =
        key.take (4 * (key.length / 4)) ++ (key.drop (4 * (key.length / 4)) ++
          List.replicate (4 - (key.drop (4 * (key.length / 4))).length) 0) := by
      rw [List.take_append_eq_append_take, List.take_of_length_le (by omega), List.take_replicate,
        ← List.append_assoc, List.take_append_drop, ht]
      congr 2; omega
    rw [hpad, wordsOf_append _ (by simp; omega), wordsOf_take_whole,
      wordsOf_pad (by omega) (by omega)]

/-- `NBLW` masks the key's padding: the engine takes exactly the key. -/
theorem validBytes_keyWords (key : List UInt8) :
    validBytes (keyWords key) (BitVec.ofNat 32 (8 * (key.length % 4))) = key := by
  have h := @validBytes_flush [] (key ++ List.replicate 3 0) key.length
    (by simp; unfold roundup4; omega)
  rw [List.nil_append, ← keyWords_eq] at h
  simpa using h

/-- **The input `stm32_hash_final` gives the engine**: the message in progress closed with
exactly the pending bytes after its words, then in HMAC mode the key. -/
theorem finalRegs_input {B : Nat} {H : BitVec 32 → List (List UInt8) → Nat → BitVec 32}
    (c : Ctx Core) {buf : List UInt8} (hlen : roundup4 c.remainLen ≤ buf.length)
    (key : List UInt8) (h : Regs Core) :
    ((finalRegs (fifoEngine B H) c buf key h).csr 0).input =
      (h.csr 0).input ++ [(h.csr 0).cur.flatMap Word.bytes ++ buf.take c.remainLen] ++
        if c.mode = .hmac then [key] else [] := by
  rw [finalRegs_core]
  split <;> simp [Core.input, validBytes_flush _ hlen, validBytes_keyWords]

/-! ### Parked sessions

Between calls a session holds its engine state in `c->csr`.  Under the FIFO model the core
in slot 0 is all of it that matters: `restore_context` puts it back into register 0, and
`save_context` takes it from there.
-/

section Parked

variable (B : Nat) (H : BitVec 32 → List (List UInt8) → Nat → BitVec 32)

/-- `INIT` is among the bits `hw_init` writes to `HASH_CR`. -/
theorem init_and_init (x : BitVec 32) : (hashCrInit ||| x) &&& hashCrInit ≠ 0 := by
  have : (hashCrInit ||| x) &&& hashCrInit = hashCrInit := by
    ext i; simp; exact fun h => Or.inl h
  rw [this]; decide

/-- What `hw_init` leaves in the core: nothing in progress, and in HMAC mode one closed
message of the key's words. -/
theorem hwInitRegs_core (c : Ctx Core) (key : List UInt8) (h : Regs Core) :
    (hwInitRegs (fifoEngine B H) c key h).csr 0 = ⟨[], if c.mode = .hmac then
      [(keyWords key, BitVec.ofNat 32 (8 * (key.length % 4)))] else []⟩ := by
  simp only [hwInitRegs, BitVec.or_assoc]
  split
  · rw [fifo_keyed_core, fifo_writeCr_core _ (init_and_init _)]
    simp [*]
  · rw [fifo_writeCr_core _ (init_and_init _)]
    rfl

/-- `stm32_hash_init` with a key it accepts, under the FIFO model: it succeeds and parks the
session with the core `hw_init` left, the `HASH_CR` it wrote, nothing pending and the first
queue size `B + 4`. -/
theorem stm32HashInit_fifo {c : Ctx Core} (hc : c.Allocated) {key : List UInt8}
    (hkey : key.length ≠ 0 ∨ c.mode = .hash) (h : Regs Core) :
    ∃ c₁ h₁, stm32HashInit (fifoEngine B H) key (c, h) = some (.ok (), c₁, h₁) ∧
      c₁.Allocated ∧ c₁.mode = c.mode ∧ c₁.algo = c.algo ∧ c₁.blockSize = c.blockSize ∧
      c₁.digestU32 = c.digestU32 ∧ c₁.remainLen = 0 ∧ c₁.queueSize = c.blockSize + 4 ∧
      c₁.cr = (hwInitRegs (fifoEngine B H) c key h).cr ∧
      c₁.savedCore = some ⟨[], if c.mode = .hmac then
        [(keyWords key, BitVec.ofNat 32 (8 * (key.length % 4)))] else []⟩ := by
  obtain ⟨buf, hbuf, hbl⟩ := hc.remainBuf
  obtain ⟨csr, hcsr, hcl⟩ := hc.csr
  rw [stm32HashInit_eq fifoEngine_neverBusy hbuf (by omega) hkey,
    @saveContext_ok _ _ _ csr ?_ ?_ _ (fifoEngine_neverBusy _)
      (by rw [Ne, fifoEngine_dinis, hwInitRegs_core]; simp)]
  · refine ⟨_, _, rfl, ⟨hc.blockSize, hc.saveMode, ⟨_, rfl, by simp [hbl]⟩, ⟨_, rfl, ?_⟩⟩,
      rfl, rfl, rfl, rfl, rfl, rfl, rfl, ?_⟩
    · simp [Ctx.saveRegs]
    · simp [Ctx.savedCore, head?_snapshot, hwInitRegs_core]
  · exact hcsr
  · exact hcl

/-- The first update that reaches the first block, right after `stm32_hash_init`: `2B + 4 + j`
bytes with `j < 4`.  While `B + 4` bytes or more are left the FIFO loop writes without looking
at `DINIS`; after `B/4 + 1` words, `B + j` bytes are left and `DINIS` is set, so the loop
stops.  The call keeps the `B + j` bytes and sets `queue_size = B`. -/
theorem stm32HashUpdate_first_fill {c : Ctx Core} (hc : c.Allocated) (hr : c.remainLen = 0)
    (hq : c.queueSize = c.blockSize + 4) {msgs : List (List Word × BitVec 32)}
    (hk : c.savedCore = some ⟨[], msgs⟩) (h : Regs Core) {m : List UInt8} {j : Nat}
    (hm : m.length = 2 * c.blockSize + 4 + j) (hj : j < 4) :
    ∃ c₂ h₂, stm32HashUpdate (fifoEngine c.blockSize H) m (c, h) = some (.ok (), c₂, h₂) ∧
      c₂.Allocated ∧ c₂.mode = c.mode ∧ c₂.algo = c.algo ∧ c₂.blockSize = c.blockSize ∧
      c₂.remainLen = c.blockSize + j ∧ c₂.queueSize = c.blockSize ∧
      c₂.savedCore = some ⟨wordsOf (m.take (c.blockSize + 4)), msgs⟩ ∧
      (c₂.remainBuf.getD []).take (c.blockSize + j) = m.drop (c.blockSize + 4) := by
  obtain ⟨buf, hbuf, hbl⟩ := hc.remainBuf
  obtain ⟨csr, hcsr, hcl⟩ := hc.csr
  have hB := hc.blockSize_words
  have hhead : csr.head? = some ⟨[], msgs⟩ := by simpa [Ctx.savedCore, hcsr] using hk
  have h₀ := restored_csr_zero (fifoEngine c.blockSize H) c hhead h
  have hk4 : 4 * (c.blockSize / 4 + 1) = c.blockSize + 4 := by omega
  have hfed : ((h.restored (fifoEngine c.blockSize H) c csr).feed (fifoEngine c.blockSize H)
      (wordsOf (m.take (c.blockSize + 4)))).csr 0 = ⟨wordsOf (m.take (c.blockSize + 4)), msgs⟩ := by
    simp [h₀]
  have hdinis : (fifoEngine c.blockSize H).sr ((h.restored (fifoEngine c.blockSize H) c csr).feed
      (fifoEngine c.blockSize H) (wordsOf (m.take (c.blockSize + 4)))) &&& hashSrDinis ≠ 0 := by
    rw [Ne, fifoEngine_dinis, hfed, length_wordsOf, List.length_take, Nat.min_eq_left (by omega),
      show (c.blockSize + 4) / 4 = c.blockSize / 4 + 1 by omega]
    simp [dinis]
  have hb : (fifoEngine c.blockSize H).NeverBusy := fifoEngine_neverBusy
  have hloop := fifoLoop_feed hb (c.blockSize / 4 + 1) (show _ ≤ m.length by omega)
    (show c.queueSize + _ ≤ _ by omega) c (h.restored (fifoEngine c.blockSize H) c csr)
  rw [hk4, fifoLoop_exit _ (by simp; omega) hdinis] at hloop
  rw [stm32HashUpdate_of_blocks _ hcsr (by omega) (by omega) (by omega)
    (flushRemain_of_remainLen_eq_zero _ hr _ _) hloop]
  have hne : (m.drop (c.blockSize + 4)).length ≠ 0 := by simp; omega
  simp only [if_pos (show m.length ≥ c.queueSize by omega), hne, ne_eq, not_false_eq_true,
    if_true]
  rw [bind_of_ok (@keepRemain_ok _ _ buf ?_ ?_ _ ?_ _),
    @saveContext_ok _ _ _ csr ?_ ?_ _ (hb _) hdinis]
  · refine ⟨_, _, rfl, ⟨hc.blockSize, hc.saveMode, ⟨_, rfl, by simp [hbl]; omega⟩,
      ⟨_, rfl, ?_⟩⟩, rfl, rfl, rfl, by simp; omega, rfl, ?_, ?_⟩
    · simp [Ctx.saveRegs]
    · simp [Ctx.savedCore, head?_snapshot, hfed]
    · rw [Option.getD_some, List.take_left' (by simp; omega)]
  all_goals first | assumption | simp; omega

/-- `stm32_hash_final` with a key it accepts, under the FIFO model, on a session parked with
core `k` and no more pending bytes than its buffer holds: it stores the digest of the input
the engine took, under the `HASH_CR` it restored.  That input is `k`'s closed messages, one
more of the bytes of `k`'s message in progress followed by the pending bytes, and in HMAC mode
the key. -/
theorem stm32HashFinal_fifo {c : Ctx Core} (hc : c.Allocated) {key : List UInt8}
    (hkey : key.length ≠ 0 ∨ c.mode = .hash) (hr : c.remainLen ≤ c.blockSize + 4) {k : Core}
    (hk : c.savedCore = some k) (h : Regs Core) :
    ∃ c₃ h₃, stm32HashFinal (fifoEngine B H) key (c, h) =
        some (.ok (digestOf (fifoEngine B H) c h₃), c₃, h₃) ∧ h₃.cr = c.cr ||| hashCrInit ∧
      (h₃.csr 0).input = k.input ++
        [k.cur.flatMap Word.bytes ++ (c.remainBuf.getD []).take c.remainLen] ++
        if c.mode = .hmac then [key] else [] := by
  obtain ⟨buf, hbuf, hbl⟩ := hc.remainBuf
  obtain ⟨csr, hcsr, hcl⟩ := hc.csr
  have hB := hc.blockSize_words
  have hhead : csr.head? = some k := by simpa [Ctx.savedCore, hcsr] using hk
  have hlen : roundup4 c.remainLen ≤ buf.length := by unfold roundup4; omega
  rw [stm32HashFinal_eq fifoEngine_neverBusy hcsr hcl.ge hbuf hlen hkey h]
  simp only [fifoEngine_dcis, if_true]
  refine ⟨_, _, rfl, by simp, ?_⟩
  rw [finalRegs_input _ hlen, restored_csr_zero _ _ hhead, hbuf, Option.getD_some]

end Parked

end Stm32Hash
