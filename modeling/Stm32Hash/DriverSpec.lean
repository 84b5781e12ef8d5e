/-
What each block of the streaming calls does, on an engine that is never busy.

The later proofs about `stm32_hash_init`, `stm32_hash_update` and `stm32_hash_final` go
through the lemmas here and do not unfold the blocks of `Stm32Hash/Driver.lean` again.  Each
block gets its effect in closed form: the words it writes to `HASH_DIN` (a `feed` of the
registers), the session it leaves, and the inputs on which it runs into undefined behaviour.

The engine is left open, except that `BUSY` never reads 1 (no wait for the end of a
computation times out), so that `hash_write_data` is exactly one write to `HASH_DIN`.  What
`DINIS` shows is the engine's business, and the FIFO loop is described by its exit
condition: the loop leaves as soon as fewer than `queue_size` bytes are left and `DINIS`
is set.
-/
import Stm32Hash.SaveRestore
import Stm32Hash.Driver

namespace Stm32Hash

open Drv

variable {V : Type}

/-! ### Words of a buffer

The driver turns bytes into `HASH_DIN` words four at a time, with `memcpy`.  `wordsOf` is
that reading of a whole buffer; a partial last word is left out.
-/

/-- The whole words of a buffer, in order. -/
def wordsOf : List UInt8 → List Word
  | b0 :: b1 :: b2 :: b3 :: rest => ⟨b0, b1, b2, b3⟩ :: wordsOf rest
  | _ => []

@[simp] theorem wordsOf_nil : wordsOf [] = [] := rfl

@[simp] theorem wordsOf_cons4 (b0 b1 b2 b3 : UInt8) (rest : List UInt8) :
    wordsOf (b0 :: b1 :: b2 :: b3 :: rest) = ⟨b0, b1, b2, b3⟩ :: wordsOf rest := rfl

theorem wordsOf_of_length_lt {bs : List UInt8} (h : bs.length < 4) : wordsOf bs = [] := by
  match bs, h with
  | [], _ | [_], _ | [_, _], _ | [_, _, _], _ => rfl

theorem length_wordsOf : ∀ bs : List UInt8, (wordsOf bs).length = bs.length / 4
  | _ :: _ :: _ :: _ :: rest => by simp [length_wordsOf rest]; omega
  | [] | [_] | [_, _] | [_, _, _] => by simp [wordsOf_of_length_lt]

/-- The bytes of the whole words are the buffer's prefix they were read from. -/
theorem flatMap_bytes_wordsOf :
    ∀ bs : List UInt8, (wordsOf bs).flatMap Word.bytes = bs.take (4 * (bs.length / 4))
  | _ :: _ :: _ :: _ :: rest => by
    have : 4 * ((rest.length + 4) / 4) = 4 * (rest.length / 4) + 4 := by omega
    simp [Word.bytes, flatMap_bytes_wordsOf rest, this]
  | [] | [_] | [_, _] | [_, _, _] => by simp [wordsOf_of_length_lt]

theorem wordsOf_append : ∀ {xs : List UInt8} (ys : List UInt8), xs.length % 4 = 0 →
    wordsOf (xs ++ ys) = wordsOf xs ++ wordsOf ys
  | _ :: _ :: _ :: _ :: rest, ys, h => by
    simp [@wordsOf_append rest ys (by simp at h; omega)]
  | [], _, _ => rfl

/-- The words of a four-byte-aligned prefix grow by the word that follows it. -/
theorem wordsOf_take_succ {bs : List UInt8} {n : Nat} {w : Word}
    (hw : Word.ofBytes? (bs.drop (4 * n)) = some w) :
    wordsOf (bs.take (4 * (n + 1))) = wordsOf (bs.take (4 * n)) ++ [w] := by
  have hlen : 4 * n + 4 ≤ bs.length := by
    obtain ⟨_, _, _, _, _, h⟩ :
        ∃ b0 b1 b2 b3 rest, bs.drop (4 * n) = b0 :: b1 :: b2 :: b3 :: rest := by
      match hd : bs.drop (4 * n), hw with
      | _ :: _ :: _ :: _ :: _, _ => exact ⟨_, _, _, _, _, rfl⟩
    have := congrArg List.length h
    simp at this; omega
  have ht : (bs.take (4 * n)).length % 4 = 0 := by simp; omega
  rw [Nat.mul_succ, List.take_add, wordsOf_append _ ht, ← Word.ofBytes?_eq_some hw]
  simp [Word.bytes]

theorem wordsOf_take_whole (bs : List UInt8) :
    wordsOf (bs.take (4 * (bs.length / 4))) = wordsOf bs := by
  have ht : (bs.take (4 * (bs.length / 4))).length % 4 = 0 := by simp; omega
  have hd : (bs.drop (4 * (bs.length / 4))).length < 4 := by simp; omega
  conv_rhs => rw [← List.take_append_drop (4 * (bs.length / 4)) bs]
  rw [wordsOf_append _ ht, wordsOf_of_length_lt hd, List.append_nil]

/-! ### Feeding the engine -/

/-- The registers after the words `ws` are written to `HASH_DIN` in turn. -/
def Regs.feed (E : Engine V) (h : Regs V) : List Word → Regs V
  | [] => h
  | w :: ws => (h.writeDin E w).feed E ws

@[simp] theorem Regs.feed_nil (E : Engine V) (h : Regs V) : h.feed E [] = h := rfl
@[simp] theorem Regs.feed_cons (E : Engine V) (h : Regs V) (w : Word) (ws : List Word) :
    h.feed E (w :: ws) = (h.writeDin E w).feed E ws := rfl

@[simp] theorem Regs.feed_append (E : Engine V) (h : Regs V) (xs ys : List Word) :
    h.feed E (xs ++ ys) = (h.feed E xs).feed E ys := by
  induction xs generalizing h <;> simp [*]

/-- Feeding words touches the context registers only. -/
@[simp] theorem Regs.feed_imr (E : Engine V) (h : Regs V) (ws : List Word) :
    (h.feed E ws).imr = h.imr := by
  induction ws generalizing h <;> simp [*]
@[simp] theorem Regs.feed_str (E : Engine V) (h : Regs V) (ws : List Word) :
    (h.feed E ws).str = h.str := by
  induction ws generalizing h <;> simp [*]
@[simp] theorem Regs.feed_cr (E : Engine V) (h : Regs V) (ws : List Word) :
    (h.feed E ws).cr = h.cr := by
  induction ws generalizing h <;> simp [*]

/-- `BUSY` never reads 1: no wait for the end of a computation times out. -/
def Engine.NeverBusy (E : Engine V) : Prop := ∀ h, E.sr h &&& hashSrBusy = 0

/-! ### Blocks that only touch the session -/

/-- The buffer-only branch of `stm32_hash_update`. -/
theorem appendRemain_ok {c : Ctx V} {buf : List UInt8} (hc : c.remainBuf = some buf)
    {buffer : List UInt8} (hlen : c.remainLen + buffer.length ≤ buf.length) (h : Regs V) :
    appendRemain buffer (c, h) = some (.ok (), { c with
      remainBuf := some (buf.take c.remainLen ++ buffer ++ buf.drop (c.remainLen + buffer.length)),
      remainLen := c.remainLen + buffer.length }, h) := by
  simp [appendRemain, hc, writeAt_of_le hlen]

/-- The leftover bytes become the pending buffer. -/
theorem keepRemain_ok {c : Ctx V} {buf : List UInt8} (hr : c.remainLen = 0)
    (hc : c.remainBuf = some buf) {rest : List UInt8} (hlen : rest.length ≤ buf.length)
    (h : Regs V) :
    keepRemain rest (c, h) = some (.ok (), { c with
      remainBuf := some (rest ++ buf.drop rest.length), remainLen := rest.length }, h) := by
  simp [keepRemain, hr, hc, writeAt_of_le (show 0 + rest.length ≤ buf.length by omega)]

/-- In a mode other than hash, `stm32_hash_init` refuses an empty key and changes nothing. -/
theorem stm32HashInit_of_bad_key (E : Engine V) {c : Ctx V} {key : List UInt8}
    (hk : key.length = 0 ∧ c.mode ≠ .hash) (h : Regs V) :
    stm32HashInit E key (c, h) = some (.error .errorBadParameters, c, h) := by
  simp [stm32HashInit, hk]

/-- So does `stm32_hash_final`, with `TEE_ERROR_BAD_STATE`. -/
theorem stm32HashFinal_of_bad_key (E : Engine V) {c : Ctx V} {key : List UInt8}
    (hk : key.length = 0 ∧ c.mode ≠ .hash) (h : Regs V) :
    stm32HashFinal E key (c, h) = some (.error .errorBadState, c, h) := by
  simp [stm32HashFinal, hk]

/-- `assert(c->remain.len == 0)` fails. -/
theorem keepRemain_of_remainLen_ne {c : Ctx V} (hr : c.remainLen ≠ 0) (rest : List UInt8)
    (h : Regs V) : keepRemain rest (c, h) = none := by
  simp [keepRemain, hr]

/-! ### `stm32_hash_update` from its blocks

Past its buffer-only branch, an update is the flush of the pending bytes, the FIFO loop, the
copy of the leftover bytes and `save_context`, in that order.  These two lemmas compose the
blocks' results, so that a proof about an update never unfolds it.
-/

/-- An update past the buffer-only branch whose flush of the pending bytes runs into
undefined behaviour does too. -/
theorem stm32HashUpdate_of_flush_none (E : Engine V) {c : Ctx V} {csr : List V}
    (hcsr : c.csr = some csr) (hl : c.saveRegs.size ≤ csr.length) {m : List UInt8}
    (hm : m.length ≠ 0) (hq : c.queueSize ≤ c.remainLen + m.length) {h : Regs V}
    (hflush : flushRemain E m (c, h.restored E c csr) = none) :
    stm32HashUpdate E m (c, h) = none := by
  unfold stm32HashUpdate
  simp only [bind_apply, hm, if_false, pure_apply, restoreContext_eq E c h hcsr hl,
    getCtx_apply, Nat.not_lt.mpr hq, hflush]

/-- An update past the buffer-only branch, from what the flush and the FIFO loop return. -/
theorem stm32HashUpdate_of_blocks (E : Engine V) {c : Ctx V} {csr : List V}
    (hcsr : c.csr = some csr) (hl : c.saveRegs.size ≤ csr.length) {m : List UInt8}
    (hm : m.length ≠ 0) (hq : c.queueSize ≤ c.remainLen + m.length) {h : Regs V}
    {rest rest' : List UInt8} {c₁ : Ctx V} {h₁ h₂ : Regs V}
    (hflush : flushRemain E m (c, h.restored E c csr) = some (.ok rest, c₁, h₁))
    (hloop : fifoLoop E c₁.queueSize rest (c₁, h₁) = some (.ok rest', c₁, h₂)) :
    stm32HashUpdate E m (c, h) =
      let c₂ := { c₁ with queueSize := if rest.length ≥ c₁.queueSize then c₁.blockSize
                                       else c₁.queueSize }
      if rest'.length ≠ 0 then (keepRemain rest' >>= fun _ => saveContext E) (c₂, h₂)
      else saveContext E (c₂, h₂) := by
  unfold stm32HashUpdate
  simp only [bind_apply, hm, if_false, pure_apply, restoreContext_eq E c h hcsr hl,
    getCtx_apply, Nat.not_lt.mpr hq, hflush, hloop, modifyCtx_apply]
  split <;> rfl

/-- An update with nothing to write. -/
theorem stm32HashUpdate_of_length_eq_zero (E : Engine V) {m : List UInt8} (hm : m.length = 0)
    (s : Ctx V × Regs V) : stm32HashUpdate E m s = some (.ok (), s) := by
  simp [stm32HashUpdate, hm]

/-- The buffer-only branch: the bytes go after the pending ones, nothing is saved, and the
call jumps to `exit` with `TEE_SUCCESS`. -/
theorem stm32HashUpdate_of_append (E : Engine V) {c : Ctx V} {csr : List V}
    (hcsr : c.csr = some csr) (hl : c.saveRegs.size ≤ csr.length) {buf : List UInt8}
    (hbuf : c.remainBuf = some buf) {m : List UInt8} (hm : m.length ≠ 0)
    (hq : c.remainLen + m.length < c.queueSize) (hlen : c.remainLen + m.length ≤ buf.length)
    (h : Regs V) :
    stm32HashUpdate E m (c, h) = some (.error .success, { c with
      remainBuf := some (buf.take c.remainLen ++ m ++ buf.drop (c.remainLen + m.length)),
      remainLen := c.remainLen + m.length }, h.restored E c csr) := by
  unfold stm32HashUpdate
  simp only [bind_apply, hm, if_false, pure_apply, restoreContext_eq E c h hcsr hl,
    getCtx_apply, hq, if_true, appendRemain_ok hbuf hlen, exit_apply]

/-- An update whose FIFO loop runs into undefined behaviour does too. -/
theorem stm32HashUpdate_of_loop_none (E : Engine V) {c : Ctx V} {csr : List V}
    (hcsr : c.csr = some csr) (hl : c.saveRegs.size ≤ csr.length) {m : List UInt8}
    (hm : m.length ≠ 0) (hq : c.queueSize ≤ c.remainLen + m.length) {h : Regs V}
    {rest : List UInt8} {c₁ : Ctx V} {h₁ : Regs V}
    (hflush : flushRemain E m (c, h.restored E c csr) = some (.ok rest, c₁, h₁))
    (hloop : fifoLoop E c₁.queueSize rest (c₁, h₁) = none) :
    stm32HashUpdate E m (c, h) = none := by
  unfold stm32HashUpdate
  simp only [bind_apply, hm, if_false, pure_apply, restoreContext_eq E c h hcsr hl,
    getCtx_apply, Nat.not_lt.mpr hq, hflush, hloop]

/-! ### Blocks that write to the FIFO -/

/-- The digest `hash_get_digest` stores: `HASH_HR(0)`, ... most significant byte first. -/
def digestOf (E : Engine V) (c : Ctx V) (h : Regs V) : List UInt8 :=
  (List.range c.digestU32).flatMap fun i => beBytes (E.hr h i)

/-- `hash_get_digest` stores `stm32_hash_digest_size` bytes. -/
theorem length_digestOf (E : Engine V) (c : Ctx V) (h : Regs V) :
    (digestOf E c h).length = stm32HashDigestSize c := by
  simp [digestOf, stm32HashDigestSize, beBytes, Function.comp_def]

theorem hashGetDigest_apply (E : Engine V) (c : Ctx V) (h : Regs V) :
    hashGetDigest E (c, h) = if E.sr h &&& hashSrDcis = hashSrDcis then
      some (.ok (digestOf E c h), c, h) else some (.error .errorBusy, c, h) := by
  unfold hashGetDigest waitDigestReady
  split <;> simp_all [digestOf]

theorem flushRemain_of_remainLen_eq_zero (E : Engine V) {c : Ctx V} (hr : c.remainLen = 0)
    (buffer : List UInt8) (h : Regs V) :
    flushRemain E buffer (c, h) = some (.ok buffer, c, h) := by
  simp [flushRemain, hr]

/-- The bytes that complete the pending buffer's last word are read from the caller's
buffer, past its end when it is shorter than them. -/
theorem flushRemain_of_length_lt (E : Engine V) {c : Ctx V} {buf : List UInt8}
    (hr : c.remainLen ≠ 0) (hc : c.remainBuf = some buf) {buffer : List UInt8}
    (hlt : buffer.length < roundup4 c.remainLen - c.remainLen) (h : Regs V) :
    flushRemain E buffer (c, h) = none := by
  have hlt' : ¬roundup4 c.remainLen ≤ buffer.length + c.remainLen := by omega
  simp [flushRemain, hr, hc, readPrefix, hlt']

theorem exists_cons4 {bs : List UInt8} (h : 4 ≤ bs.length) :
    ∃ b0 b1 b2 b3 rest, bs = b0 :: b1 :: b2 :: b3 :: rest := by
  match bs, h with
  | b0 :: b1 :: b2 :: b3 :: rest, _ => exact ⟨b0, b1, b2, b3, rest, rfl⟩

theorem length_lt_of_not_cons4 {bs : List UInt8}
    (h : ∀ b0 b1 b2 b3 rest, bs = b0 :: b1 :: b2 :: b3 :: rest → False) : bs.length < 4 := by
  by_contra hl
  obtain ⟨_, _, _, _, _, he⟩ := exists_cons4 (Nat.le_of_not_lt hl)
  exact h _ _ _ _ _ he

theorem fifoWanted_apply (E : Engine V) (queueSize len : Nat) (s : Ctx V × Regs V) :
    fifoWanted E queueSize len s =
      some (.ok (decide (queueSize ≤ len) || decide (E.sr s.2 &&& hashSrDinis = 0)), s) := by
  unfold fifoWanted; split <;> simp_all

/-- The FIFO loop leaves once fewer than `queue_size` bytes are left and `DINIS` is set. -/
theorem fifoLoop_exit (E : Engine V) {qs : Nat} {bs : List UInt8} (hl : bs.length < qs)
    {h : Regs V} (hd : E.sr h &&& hashSrDinis ≠ 0) (c : Ctx V) :
    fifoLoop E qs bs (c, h) = some (.ok bs, c, h) := by
  have hw : ¬(qs ≤ bs.length ∨ E.sr h &&& hashSrDinis = 0) := not_or.mpr ⟨by omega, hd⟩
  rw [fifoLoop.eq_def]
  simp only [bind_apply, fifoWanted_apply, Bool.or_eq_true, decide_eq_true_eq, if_neg hw,
    pure_apply]

/-- While it goes on with fewer than four bytes left, its `memcpy` reads past the caller's
buffer. -/
theorem fifoLoop_of_length_lt (E : Engine V) {qs : Nat} {bs : List UInt8} {h : Regs V}
    (hw : qs ≤ bs.length ∨ E.sr h &&& hashSrDinis = 0) (hl : bs.length < 4) (c : Ctx V) :
    fifoLoop E qs bs (c, h) = none := by
  match bs, hl with
  | [], _ | [_], _ | [_, _], _ | [_, _, _], _ =>
    rw [fifoLoop.eq_def]
    simp only [bind_apply, fifoWanted_apply, Bool.or_eq_true, decide_eq_true_eq, if_pos hw]
    rfl



/-- An update that must complete the pending buffer's last word, but brings fewer bytes than
that word still needs, `memcpy`s them from past the end of its buffer. -/
theorem stm32HashUpdate_of_short_align (E : Engine V) {c : Ctx V} (hc : c.Allocated)
    (hr : c.remainLen ≠ 0) {m : List UInt8} (hm : m.length ≠ 0)
    (hq : c.queueSize ≤ c.remainLen + m.length)
    (hlt : m.length < roundup4 c.remainLen - c.remainLen) (h : Regs V) :
    stm32HashUpdate E m (c, h) = none := by
  obtain ⟨buf, hbuf, -⟩ := hc.remainBuf
  obtain ⟨csr, hcsr, hcl⟩ := hc.csr
  exact stm32HashUpdate_of_flush_none E hcsr hcl.ge hm hq
    (flushRemain_of_length_lt E hr hbuf hlt _)

theorem take_cons4 (b0 b1 b2 b3 : UInt8) (l : List UInt8) (k : Nat) :
    (b0 :: b1 :: b2 :: b3 :: l).take (4 * (k + 1)) = b0 :: b1 :: b2 :: b3 :: l.take (4 * k) := by
  rw [show 4 * (k + 1) = 4 * k + 1 + 1 + 1 + 1 by omega]; rfl

theorem drop_cons4 (b0 b1 b2 b3 : UInt8) (l : List UInt8) (k : Nat) :
    (b0 :: b1 :: b2 :: b3 :: l).drop (4 * (k + 1)) = l.drop (4 * k) := by
  rw [show 4 * (k + 1) = 4 * k + 1 + 1 + 1 + 1 by omega]; rfl

/-- With fewer than four bytes the loop either stops at once or runs into undefined
behaviour. -/
theorem fifoLoop_of_short (E : Engine V) (qs : Nat) {bs : List UInt8} (hl : bs.length < 4)
    (c : Ctx V) (h : Regs V) :
    (qs ≤ bs.length ∨ E.sr h &&& hashSrDinis = 0) ∧ fifoLoop E qs bs (c, h) = none ∨
      bs.length < qs ∧ E.sr h &&& hashSrDinis ≠ 0 ∧
      fifoLoop E qs bs (c, h) = some (.ok bs, c, h) := by
  by_cases hw : qs ≤ bs.length ∨ E.sr h &&& hashSrDinis = 0
  · exact .inl ⟨hw, fifoLoop_of_length_lt E hw hl c⟩
  · rw [not_or] at hw
    exact .inr ⟨by omega, hw.2, fifoLoop_exit E (by omega) hw.2 c⟩

section NeverBusy

variable {E : Engine V} (hb : E.NeverBusy)
include hb

theorem waitEndBusy_ok (s : Ctx V × Regs V) : waitEndBusy E s = some (.ok (), s) := by
  simp [waitEndBusy_apply, hb s.2]

theorem hashWriteData_ok (w : Word) (c : Ctx V) (h : Regs V) :
    hashWriteData E w (c, h) = some (.ok (), c, h.writeDin E w) := by
  simp [hashWriteData, waitEndBusy_ok hb]

/-- `write_key`'s loop over the key's whole words. -/
theorem forRange_writeWords (bs : List UInt8) (c : Ctx V) (h : Regs V) :
    ∀ n, 4 * n ≤ bs.length →
      forRange n (fun i => do hashWriteData E (← lift (Word.ofBytes? (bs.drop (4 * i))))) (c, h)
        = some (.ok (), c, h.feed E (wordsOf (bs.take (4 * n))))
  | 0, _ => rfl
  | n + 1, hn => by
    obtain ⟨w, hw⟩ := @Word.ofBytes?_isSome (bs.drop (4 * n)) (by simp; omega)
    rw [forRange_succ, bind_of_ok (forRange_writeWords bs c h n (by omega)),
      wordsOf_take_succ hw]
    simp [hw, hashWriteData_ok hb]

/-- The words `write_key` writes: the key's whole words, then its last partial word padded
with zeros. -/
def keyWords (key : List UInt8) : List Word :=
  wordsOf key ++
    if key.length % 4 = 0 then [] else [Word.ofPrefix (key.drop (4 * (key.length / 4)))]

/-- The registers `write_key` leaves. -/
def Regs.keyed (E : Engine V) (h : Regs V) (key : List UInt8) : Regs V :=
  ((h.clrsetbitsStr E hashStrNblwMask (BitVec.ofNat 32 (8 * (key.length % 4)))).feed E
    (keyWords key)).setbitsStr E hashStrDcal

theorem writeKey_ok (key : List UInt8) (c : Ctx V) (h : Regs V) :
    writeKey E key (c, h) = some (.ok (), c, h.keyed E key) := by
  simp only [writeKey, bind_apply, io_apply,
    forRange_writeWords hb key c _ (key.length / 4) (by omega)]
  by_cases hk : key.length % 4 = 0
  · simp [hk, Regs.keyed, keyWords, wordsOf_take_whole]
  · simp [hk, Regs.keyed, keyWords, wordsOf_take_whole, hashWriteData_ok hb]

/-- The flush of the pending buffer's first `n` words: they go to the FIFO in order and are
cleared behind. -/
theorem flushWords_ok {c : Ctx V} {buf : List UInt8} (hc : c.remainBuf = some buf) (h : Regs V) :
    ∀ n, 4 * n ≤ buf.length →
      flushWords E n (c, h) = some (.ok (), { c with
        remainBuf := some (List.replicate (4 * n) 0 ++ buf.drop (4 * n)) },
        h.feed E (wordsOf (buf.take (4 * n))))
  | 0, _ => by simp [flushWords, forRange, ← hc]; rfl
  | n + 1, hn => by
    obtain ⟨w, hw⟩ := @Word.ofBytes?_isSome (buf.drop (4 * n)) (by simp; omega)
    have ih := flushWords_ok hc h n (by omega)
    have hzero : writeAt (List.replicate (4 * n) 0 ++ buf.drop (4 * n)) (4 * n) [0, 0, 0, 0] =
        some (List.replicate (4 * (n + 1)) 0 ++ buf.drop (4 * (n + 1))) := by
      rw [writeAt_of_le (by simp; omega), List.take_left' (by simp), Nat.mul_succ,
        List.replicate_add, List.drop_append_eq_append_drop]
      simp [List.drop_drop, Nat.add_comm]
    unfold flushWords at ih ⊢
    rw [forRange_succ, bind_of_ok ih, wordsOf_take_succ hw]
    simp [remainWord, zeroRemainWord, List.drop_left', hw, hashWriteData_ok hb, hzero]

/-- Otherwise the pending bytes, completed to a whole word from the caller's buffer, go to
the FIFO, and the rest of the caller's buffer is handed back. -/
theorem flushRemain_ok {c : Ctx V} {buf : List UInt8} (hr : c.remainLen ≠ 0)
    (hc : c.remainBuf = some buf) (hlen : roundup4 c.remainLen ≤ buf.length)
    {buffer : List UInt8} (hal : roundup4 c.remainLen - c.remainLen ≤ buffer.length)
    (h : Regs V) :
    flushRemain E buffer (c, h) = some (.ok (buffer.drop (roundup4 c.remainLen - c.remainLen)),
      { c with remainBuf := some (List.replicate (roundup4 c.remainLen) 0 ++
                                  buf.drop (roundup4 c.remainLen)),
               remainLen := 0 },
      h.feed E (wordsOf (buf.take c.remainLen ++
                         buffer.take (roundup4 c.remainLen - c.remainLen)))) := by
  have hup : c.remainLen ≤ roundup4 c.remainLen ∧ roundup4 c.remainLen % 4 = 0 := by
    unfold roundup4; omega
  have hsum : c.remainLen + (roundup4 c.remainLen - c.remainLen) = roundup4 c.remainLen := by
    omega
  have hpre : (buf.take c.remainLen ++
      buffer.take (roundup4 c.remainLen - c.remainLen)).length = roundup4 c.remainLen := by
    simp; omega
  have hw : writeAt buf c.remainLen (buffer.take (roundup4 c.remainLen - c.remainLen)) =
      some (buf.take c.remainLen ++ buffer.take (roundup4 c.remainLen - c.remainLen) ++
        buf.drop (roundup4 c.remainLen)) := by
    rw [writeAt_of_le (by simp; omega)]
    simp [Nat.min_eq_left hal, hsum]
  have hflush := @flushWords_ok V E hb
    { c with
      remainBuf := some (buf.take c.remainLen ++
        buffer.take (roundup4 c.remainLen - c.remainLen) ++ buf.drop (roundup4 c.remainLen)),
      remainLen := roundup4 c.remainLen } _ rfl h (roundup4 c.remainLen / 4) (by simp; omega)
  rw [show 4 * (roundup4 c.remainLen / 4) = roundup4 c.remainLen by omega,
    List.take_left' hpre, List.drop_left' hpre] at hflush
  simp only [flushRemain, bind_apply, getCtx_apply, hr, if_false, hc, lift_apply,
    readPrefix_of_le hal, Option.map_some', hw, setCtx_apply, hsum, hflush, modifyCtx_apply,
    pure_apply]

/-- The flush of the pending bytes, whatever their number: with none it hands the caller's
buffer back untouched, and otherwise it runs into undefined behaviour or does what
`flushRemain_ok` says. -/
theorem flushRemain_eq {c : Ctx V} {buf : List UInt8} (hc : c.remainBuf = some buf)
    (hlen : roundup4 c.remainLen ≤ buf.length) (buffer : List UInt8) (h : Regs V) :
    flushRemain E buffer (c, h) =
      if c.remainLen ≠ 0 ∧ buffer.length < roundup4 c.remainLen - c.remainLen then none
      else some (.ok (buffer.drop (roundup4 c.remainLen - c.remainLen)),
        { c with remainBuf := some (List.replicate (roundup4 c.remainLen) 0 ++
                                    buf.drop (roundup4 c.remainLen)),
                 remainLen := 0 },
        h.feed E (wordsOf (buf.take c.remainLen ++
                           buffer.take (roundup4 c.remainLen - c.remainLen)))) := by
  by_cases hr : c.remainLen = 0
  · have hself : ({ c with remainBuf := some buf, remainLen := 0 } : Ctx V) = c := by
      rw [← hc, ← hr]
    simp [flushRemain_of_remainLen_eq_zero E hr, hr, show roundup4 0 = 0 from rfl, hself]
  · by_cases hal : buffer.length < roundup4 c.remainLen - c.remainLen
    · rw [if_pos ⟨hr, hal⟩, flushRemain_of_length_lt E hr hc hal]
    · rw [if_neg (by tauto), flushRemain_ok hb hr hc hlen (by omega)]

/-- While the loop's condition holds it writes the next word. -/
theorem fifoLoop_cons {qs : Nat} {b0 b1 b2 b3 : UInt8} {bs : List UInt8} {h : Regs V}
    (hw : qs ≤ bs.length + 4 ∨ E.sr h &&& hashSrDinis = 0) (c : Ctx V) :
    fifoLoop E qs (b0 :: b1 :: b2 :: b3 :: bs) (c, h) =
      fifoLoop E qs bs (c, h.writeDin E ⟨b0, b1, b2, b3⟩) := by
  rw [fifoLoop.eq_def]
  simp only [bind_apply, fifoWanted_apply, List.length_cons, Bool.or_eq_true,
    decide_eq_true_eq, if_pos hw, hashWriteData_ok hb]

/-- While at least `queue_size` bytes are left, the loop writes words whatever `DINIS`
shows. -/
theorem fifoLoop_feed {qs : Nat} : ∀ (k : Nat) {bs : List UInt8}, 4 * k ≤ bs.length →
    qs + 4 * k ≤ bs.length + 4 → ∀ (c : Ctx V) (h : Regs V),
      fifoLoop E qs bs (c, h) =
        fifoLoop E qs (bs.drop (4 * k)) (c, h.feed E (wordsOf (bs.take (4 * k))))
  | 0, _, _, _, _, _ => rfl
  | k + 1, bs, hk, hq, c, h => by
    obtain ⟨b0, b1, b2, b3, rest, rfl⟩ := exists_cons4 (show 4 ≤ bs.length by omega)
    simp only [List.length_cons] at hk hq
    rw [fifoLoop_cons hb (Or.inl (by omega)), fifoLoop_feed k (by omega) (by omega),
      show 4 * (k + 1) = 4 * k + 1 + 1 + 1 + 1 by omega]
    simp

/-- The FIFO loop runs into undefined behaviour, or writes the first `k` words of the
buffer and leaves with fewer than `queue_size` bytes left and `DINIS` set. -/
theorem fifoLoop_spec (qs : Nat) (bs : List UInt8) : ∀ (c : Ctx V) (h : Regs V),
    fifoLoop E qs bs (c, h) = none ∨ ∃ k, 4 * k ≤ bs.length ∧ bs.length - 4 * k < qs ∧
      E.sr (h.feed E (wordsOf (bs.take (4 * k)))) &&& hashSrDinis ≠ 0 ∧
      fifoLoop E qs bs (c, h) =
        some (.ok (bs.drop (4 * k)), c, h.feed E (wordsOf (bs.take (4 * k)))) := by
  induction bs using wordsOf.induct with
  | case1 b0 b1 b2 b3 rest ih =>
    intro c h
    by_cases hw : qs ≤ rest.length + 4 ∨ E.sr h &&& hashSrDinis = 0
    · rw [fifoLoop_cons hb hw]
      rcases ih c (h.writeDin E ⟨b0, b1, b2, b3⟩) with hn | ⟨k, hk, hlt, hd, he⟩
      · exact .inl hn
      · refine .inr ⟨k + 1, by simp; omega, by simp; omega, ?_, ?_⟩ <;>
          simpa [take_cons4, drop_cons4] using ‹_›
    · rw [not_or] at hw
      exact .inr ⟨0, by simp, by simp; omega, by simpa using hw.2,
        fifoLoop_exit E (by simp; omega) hw.2 c⟩
  | case2 bs hbs =>
    intro c h
    rcases fifoLoop_of_short E qs (length_lt_of_not_cons4 hbs) c h with ⟨-, hn⟩ | ⟨hlt, hd, he⟩
    · exact .inl hn
    · exact .inr ⟨0, by simp, by simpa using hlt, by simpa using hd, by simpa using he⟩

/-- Two runs of the FIFO loop on the same bytes, from registers that agree on what the
loop's condition reads, do the same: both run into undefined behaviour, or both leave the
same bytes, fewer than the queue size, and registers that still agree. -/
theorem fifoLoop_rel (R : Regs V → Regs V → Prop)
    (hdin : ∀ h h' w, R h h' → R (h.writeDin E w) (h'.writeDin E w))
    (hsr : ∀ h h', R h h' → E.sr h = E.sr h') {qs qs' : Nat} (hq : qs = qs') (bs : List UInt8) :
    ∀ (c c' : Ctx V) (h h' : Regs V), R h h' →
      (fifoLoop E qs bs (c, h) = none ∧ fifoLoop E qs' bs (c', h') = none) ∨
      ∃ rest g g', rest.length < qs ∧ fifoLoop E qs bs (c, h) = some (.ok rest, c, g) ∧
        fifoLoop E qs' bs (c', h') = some (.ok rest, c', g') ∧ R g g' := by
  subst hq
  induction bs using wordsOf.induct with
  | case1 b0 b1 b2 b3 rest ih =>
    intro c c' h h' hR
    by_cases hw : qs ≤ rest.length + 4 ∨ E.sr h &&& hashSrDinis = 0
    · rw [fifoLoop_cons hb hw, fifoLoop_cons hb (by rwa [← hsr h h' hR])]
      exact ih c c' _ _ (hdin h h' _ hR)
    · rw [not_or] at hw
      have hw' := hw.2
      rw [hsr h h' hR] at hw'
      exact .inr ⟨_, _, _, by simp; omega, fifoLoop_exit E (by simp; omega) hw.2 c,
        fifoLoop_exit E (by simp; omega) hw' c', hR⟩
  | case2 bs hbs =>
    intro c c' h h' hR
    rcases fifoLoop_of_short E qs (length_lt_of_not_cons4 hbs) c h with ⟨hw, hn⟩ | ⟨hlt, hd, he⟩
    · rw [hsr h h' hR] at hw
      exact .inl ⟨hn, fifoLoop_of_length_lt E hw (length_lt_of_not_cons4 hbs) c'⟩
    · rw [hsr h h' hR] at hd
      exact .inr ⟨_, _, _, hlt, he, fifoLoop_exit E hlt hd c', hR⟩

/-- The registers `hw_init` leaves. -/
def hwInitRegs (E : Engine V) (c : Ctx V) (key : List UInt8) (h : Regs V) : Regs V :=
  let regCr := hashCrInit ||| hashCrDatatypeByte ||| algoCr c.caps c.algo
  if c.mode = .hmac then
    (h.writeCr E (regCr ||| hashCrMode |||
      if key.length > c.blockSize then hashCrLkey else 0)).keyed E key
  else h.writeCr E regCr

/-- The value `hw_init` writes to `HASH_CR`, for a session of configuration `n`. -/
def Config.initCr (n : Config) (key : List UInt8) : BitVec 32 :=
  let regCr := hashCrInit ||| hashCrDatatypeByte ||| algoCr n.caps n.algo
  if n.mode = .hmac then
    regCr ||| hashCrMode ||| (if key.length > n.blockSize then hashCrLkey else 0)
  else regCr

theorem hwInit_ok (key : List UInt8) (c : Ctx V) (h : Regs V) :
    hwInit E key (c, h) = some (.ok (), c, hwInitRegs E c key h) := by
  unfold hwInit hwInitRegs
  split <;> simp [*, writeKey_ok hb]

/-- `stm32_hash_init` with a key it accepts: the pending buffer is cleared, the first queue
size is set, `hw_init` runs, and the context is saved. -/
theorem stm32HashInit_eq {c : Ctx V} {buf : List UInt8} (hc : c.remainBuf = some buf)
    (hlen : c.blockSize + 4 ≤ buf.length) {key : List UInt8}
    (hkey : key.length ≠ 0 ∨ c.mode = .hash) (h : Regs V) :
    stm32HashInit E key (c, h) = saveContext E ({ c with
      remainBuf := some (List.replicate (c.blockSize + 4) 0 ++ buf.drop (c.blockSize + 4)),
      remainLen := 0, queueSize := c.blockSize + 4 }, hwInitRegs E c key h) := by
  have hk : ¬(key.length = 0 ∧ c.mode ≠ .hash) := by tauto
  simp only [stm32HashInit, bind_apply, getCtx_apply, hk, if_false, pure_apply, hc,
    lift_apply, writeAt_of_le (show 0 + (List.replicate (c.blockSize + 4) (0 : UInt8)).length
      ≤ buf.length by simpa using hlen), Option.map_some', setCtx_apply, hwInit_ok hb]
  simp [hwInitRegs]

/-- The registers `stm32_hash_final` leaves before it reads the digest, from the restored
ones: the pending words, `NBLW` of the last one, `DCAL`, and in HMAC mode the key again. -/
def finalRegs (E : Engine V) (c : Ctx V) (buf key : List UInt8) (h : Regs V) : Regs V :=
  let h := if c.remainLen ≠ 0 then
      (h.feed E (wordsOf (buf.take (roundup4 c.remainLen)))).clrsetbitsStr E hashStrNblwMask
        (BitVec.ofNat 32 (8 * (c.remainLen % 4)))
    else h.clrbitsStr E hashStrNblwMask
  let h := h.setbitsStr E hashStrDcal
  if c.mode = .hmac then h.keyed E key else h

/-- `stm32_hash_final` with a key it accepts, on a session whose buffers are in place. -/
theorem stm32HashFinal_eq {c : Ctx V} {csr : List V} (hcsr : c.csr = some csr)
    (hl : c.saveRegs.size ≤ csr.length) {buf : List UInt8} (hc : c.remainBuf = some buf)
    (hlen : roundup4 c.remainLen ≤ buf.length) {key : List UInt8}
    (hkey : key.length ≠ 0 ∨ c.mode = .hash) (h : Regs V) :
    stm32HashFinal E key (c, h) =
      let h' := finalRegs E c buf key (h.restored E c csr)
      let c' := if c.remainLen ≠ 0 then
          { c with remainBuf := some (List.replicate (roundup4 c.remainLen) 0 ++
                                      buf.drop (roundup4 c.remainLen)),
                   remainLen := 0 }
        else c
      if E.sr h' &&& hashSrDcis = hashSrDcis then some (.ok (digestOf E c h'), c', h')
      else some (.error .errorBusy, c', h') := by
  have hk : ¬(key.length = 0 ∧ c.mode ≠ .hash) := by tauto
  have h4 : 4 * ((c.remainLen + 3) / 4) = roundup4 c.remainLen := by unfold roundup4; omega
  by_cases hr : c.remainLen = 0
  · simp only [stm32HashFinal, bind_apply, getCtx_apply, hk, if_false, pure_apply,
      restoreContext_eq E c h hcsr hl, hr, ne_eq, not_true_eq_false, io_apply, finalRegs]
    split <;> simp [*, writeKey_ok hb, hashGetDigest_apply, digestOf]
  · have hflush := flushWords_ok hb hc (h.restored E c csr) ((c.remainLen + 3) / 4) (by omega)
    rw [h4] at hflush
    simp only [stm32HashFinal, bind_apply, getCtx_apply, hk, if_false, pure_apply,
      restoreContext_eq E c h hcsr hl, hr, ne_eq, not_false_eq_true, if_true, hc,
      Option.isNone_some, Bool.false_eq_true, hflush, io_apply, modifyCtx_apply, finalRegs]
    split <;> simp [*, writeKey_ok hb, hashGetDigest_apply, digestOf]

end NeverBusy

/-- `write_key` writes `HASH_STR` and `HASH_DIN` only. -/
@[simp] theorem Regs.keyed_cr (E : Engine V) (h : Regs V) (key : List UInt8) :
    (h.keyed E key).cr = h.cr := by
  simp [Regs.keyed, Regs.clrsetbitsStr, Regs.setbitsStr]

/-- `hw_init` writes the `HASH_CR` of the session's configuration, then in HMAC mode the
key. -/
theorem hwInitRegs_eq (E : Engine V) (c : Ctx V) (key : List UInt8) (h : Regs V) :
    hwInitRegs E c key h = if c.mode = .hmac then (h.writeCr E (c.config.initCr key)).keyed E key
      else h.writeCr E (c.config.initCr key) := by
  unfold hwInitRegs Config.initCr
  split <;> simp [Ctx.config, *]

theorem hwInitRegs_cr (E : Engine V) (c : Ctx V) (key : List UInt8) (h : Regs V) :
    (hwInitRegs E c key h).cr = c.config.initCr key := by
  rw [hwInitRegs_eq]
  split <;> simp

/-- `hw_init` sets `INIT`. -/
theorem initCr_or_init (n : Config) (key : List UInt8) :
    n.initCr key ||| hashCrInit = n.initCr key := by
  unfold Config.initCr
  split <;> ext i <;> simp only [BitVec.getLsbD_or] <;> cases hashCrInit.getLsbD i <;> simp

/-- So does `stm32_hash_final`. -/
@[simp] theorem finalRegs_cr (E : Engine V) (c : Ctx V) (buf key : List UInt8) (h : Regs V) :
    (finalRegs E c buf key h).cr = h.cr := by
  unfold finalRegs
  split_ifs <;> simp [Regs.clrsetbitsStr, Regs.setbitsStr, Regs.clrbitsStr]

end Stm32Hash
