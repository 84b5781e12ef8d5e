/-
Twin sessions: sessions that no call can tell apart under the FIFO model.

Under the FIFO model the engine's state is the core in context register 0, `INIT` clears it,
and `HASH_SR` and the digest registers read nothing but the core and `HASH_CR`.  Every call
that reaches the engine starts by putting both back from the session: `restore_context` does,
and `stm32_hash_init` writes `INIT`.  What a call does therefore depends on its session only
through the session's sizes, its saved `HASH_CR`, its saved core and its pending bytes.  It
does not depend on what the engine held before the call, on the `IMR` and `STR` the session
saved, on the other context registers it saved, or on its pending buffer past `remain.len`.
Sessions that agree on the rest are twins (`Ctx.Twin`): every call returns the same on twins
and leaves them twins (`Call.run_twin`), and so does every run of calls (`runCalls_twin`).

The pending buffer's tail does reach the engine: `stm32_hash_final` flushes whole words, and
the bytes of the last one past `remain.len` are whatever the buffer held.  `NBLW` masks them,
so the input the engine takes is the same on twins (`finalRegs_input`), though the words are
not.

`stm32_hash_deep_copy` makes a twin of its source: it copies the pending bytes and every
saved register, and leaves the destination's buffer past `remain.len` as it was.
-/
import Stm32Hash.Session
import Stm32Hash.Streaming

namespace Stm32Hash

open Drv

variable {V : Type} {B : Nat} {H : BitVec 32 → List (List UInt8) → Nat → BitVec 32}

/-! ### Engines in the same state -/

/-- Two engines in the same state as far as the FIFO model reads it: `HASH_CR` and the
core. -/
structure Regs.Same (g g' : Regs Core) : Prop where
  cr : g.cr = g'.cr
  core : g.csr 0 = g'.csr 0

theorem Regs.Same.writeDin {g g' : Regs Core} (hg : g.Same g') (w : Word) :
    (g.writeDin (fifoEngine B H) w).Same (g'.writeDin (fifoEngine B H) w) :=
  ⟨hg.cr, by simp [hg.core]⟩

theorem Regs.Same.feed {g g' : Regs Core} (hg : g.Same g') (ws : List Word) :
    (g.feed (fifoEngine B H) ws).Same (g'.feed (fifoEngine B H) ws) :=
  ⟨by simp [hg.cr], by simp [hg.core]⟩

theorem Regs.Same.sr {g g' : Regs Core} (hg : g.Same g') :
    (fifoEngine B H).sr g = (fifoEngine B H).sr g' := by
  simp only [fifoEngine, hg.core]

/-- The digest reads `HASH_CR` and the input taken. -/
theorem digestOf_fifo {c d : Ctx Core} (hn : c.digestU32 = d.digestU32) {g g' : Regs Core}
    (hcr : g.cr = g'.cr) (hin : (g.csr 0).input = (g'.csr 0).input) :
    digestOf (fifoEngine B H) c g = digestOf (fifoEngine B H) d g' := by
  simp only [digestOf, fifoEngine, hn, hcr, hin]

/-! ### Twin sessions -/

/-- The bytes `remain.buf` holds for the next call. -/
def Ctx.pending (c : Ctx V) : List UInt8 := (c.remainBuf.getD []).take c.remainLen

theorem Ctx.pending_of {c : Ctx V} {buf : List UInt8} (hb : c.remainBuf = some buf) :
    c.pending = buf.take c.remainLen := by
  simp [Ctx.pending, hb]

/-- Two sessions that no call can tell apart: they agree on every field but the `IMR` and
`STR` they saved, the context registers they saved after the core, and their pending
buffers past `remain.len`. -/
structure Ctx.Twin (c d : Ctx Core) : Prop where
  caps : c.caps = d.caps
  mode : c.mode = d.mode
  algo : c.algo = d.algo
  digestU32 : c.digestU32 = d.digestU32
  blockSize : c.blockSize = d.blockSize
  saveMode : c.saveMode = d.saveMode
  queueSize : c.queueSize = d.queueSize
  remainLen : c.remainLen = d.remainLen
  cr : c.cr = d.cr
  pending : c.pending = d.pending
  savedCore : c.savedCore = d.savedCore

namespace Ctx.Twin

variable {c d : Ctx Core}

theorem refl (c : Ctx Core) : c.Twin c :=
  ⟨rfl, rfl, rfl, rfl, rfl, rfl, rfl, rfl, rfl, rfl, rfl⟩

theorem symm (ht : c.Twin d) : d.Twin c :=
  ⟨ht.caps.symm, ht.mode.symm, ht.algo.symm, ht.digestU32.symm, ht.blockSize.symm,
    ht.saveMode.symm, ht.queueSize.symm, ht.remainLen.symm, ht.cr.symm, ht.pending.symm,
    ht.savedCore.symm⟩

/-- New pending buffers that start with the same `n` bytes. -/
theorem withPending (ht : c.Twin d) {x y : List UInt8} {n : Nat} (hp : x.take n = y.take n) :
    ({ c with remainBuf := some x, remainLen := n } : Ctx Core).Twin
      { d with remainBuf := some y, remainLen := n } :=
  { ht with remainLen := rfl, pending := by simpa [Ctx.pending] using hp }

theorem withQueueSize (ht : c.Twin d) {q q' : Nat} (hq : q = q') :
    ({ c with queueSize := q } : Ctx Core).Twin { d with queueSize := q' } :=
  { ht with queueSize := hq }

/-- What `save_context` records from engines in the same state. -/
theorem saved (ht : c.Twin d) {g g' : Regs Core} (hg : g.Same g') :
    ({ c with imr := g.imr, str := g.str, cr := g.cr,
              csr := some (g.snapshot c.saveRegs) } : Ctx Core).Twin
      { d with imr := g'.imr, str := g'.str, cr := g'.cr,
               csr := some (g'.snapshot d.saveRegs) } :=
  { ht with cr := hg.cr, savedCore := by simp [Ctx.savedCore, head?_snapshot, hg.core] }

end Ctx.Twin

/-- `restore_context` puts back `HASH_CR` and the core: whatever the engines held, twins
restore them to the same state. -/
theorem Regs.same_restored (E : Engine Core) {c d : Ctx Core} (hc : c.Allocated) (ht : c.Twin d)
    {cc cd : List Core} (hcc : c.csr = some cc) (hcd : d.csr = some cd) (h h' : Regs Core) :
    (h.restored E c cc).Same (h'.restored E d cd) := by
  obtain ⟨csr, hcsr, hl⟩ := hc.csr
  rw [hcc] at hcsr
  cases hcsr
  obtain ⟨k, rest, rfl⟩ := List.exists_cons_of_length_pos (hl ▸ saveRegs_size_pos c)
  have hk : cd.head? = some k := by
    simpa [Ctx.savedCore, hcc, hcd] using ht.savedCore.symm
  exact ⟨by simp [ht.cr], by rw [restored_csr_zero _ _ List.head?_cons,
    restored_csr_zero _ _ hk]⟩

/-! ### Runs of one call on twins -/

/-- Two runs of a call that a client cannot tell apart: both run into undefined behaviour,
or both return the same and leave twin sessions, with engines related by `R`. -/
inductive Twins {α : Type} (R : Regs Core → Regs Core → Prop) :
    Option (Except TeeResult α × Ctx Core × Regs Core) →
      Option (Except TeeResult α × Ctx Core × Regs Core) → Prop
  | stuck : Twins R none none
  | ret {r : Except TeeResult α} {c d : Ctx Core} {g g' : Regs Core} :
      c.Twin d → R g g' → Twins R (some (r, c, g)) (some (r, d, g'))

/-- What a call leaves of the engines it ran on: the engines untouched, or engines that took
the same input. -/
def AfterCall (h h' g g' : Regs Core) : Prop :=
  (g = h ∧ g' = h') ∨ (g.csr 0).input = (g'.csr 0).input

namespace Twins

variable {α : Type} {R : Regs Core → Regs Core → Prop}
  {x y : Option (Except TeeResult α × Ctx Core × Regs Core)}

theorem mono {Q : Regs Core → Regs Core → Prop} (hx : Twins R x y)
    (hRQ : ∀ g g', R g g' → Q g g') : Twins Q x y := by
  cases hx with
  | stuck => exact .stuck
  | ret ht hR => exact .ret ht (hRQ _ _ hR)

/-- Engines in the same state took the same input. -/
theorem afterCall (hx : Twins Regs.Same x y) (h h' : Regs Core) : Twins (AfterCall h h') x y :=
  hx.mono fun _ _ hs => .inr (congrArg Core.input hs.core)

theorem map {β : Type} (hx : Twins R x y) (f : Except TeeResult α → Except TeeResult β) :
    Twins R (x.map fun p => (f p.1, p.2)) (y.map fun p => (f p.1, p.2)) := by
  cases hx with
  | stuck => exact .stuck
  | ret ht hR => exact .ret ht hR

theorem eq_or (hx : Twins R x y) : (x = none ∧ y = none) ∨
    ∃ r c d g g', x = some (r, c, g) ∧ y = some (r, d, g') ∧ c.Twin d ∧ R g g' := by
  cases hx with
  | stuck => exact .inl ⟨rfl, rfl⟩
  | ret ht hR => exact .inr ⟨_, _, _, _, _, rfl, rfl, ht, hR⟩

end Twins

variable {c d : Ctx Core}

/-- `save_context` on twins, from engines in the same state. -/
theorem saveContext_twin (hc : c.Allocated) (hd : d.Allocated) (ht : c.Twin d) {g g' : Regs Core}
    (hg : g.Same g') :
    Twins Regs.Same (saveContext (fifoEngine B H) (c, g))
      (saveContext (fifoEngine B H) (d, g')) := by
  obtain ⟨cc, hcc, hccl⟩ := hc.csr
  obtain ⟨cd, hcd, hcdl⟩ := hd.csr
  rw [saveContext_eq _ c g hcc hccl, saveContext_eq _ d g' hcd hcdl, hg.sr]
  split_ifs
  · exact .ret ht hg
  · exact .ret (ht.saved hg) hg
  · exact .ret ht hg

/-- The end of an update, on twins with nothing pending: the bytes the FIFO loop left are
kept, and the context is saved. -/
theorem keepSave_twin (hc : c.Allocated) (hd : d.Allocated) (ht : c.Twin d)
    (hr : c.remainLen = 0) {bc bd : List UInt8} (hbc : c.remainBuf = some bc)
    (hbd : d.remainBuf = some bd) {rest : List UInt8} (hlen : rest.length ≤ bc.length)
    (hlen' : rest.length ≤ bd.length) {g g' : Regs Core} (hg : g.Same g') :
    Twins Regs.Same
      (if rest.length ≠ 0 then (keepRemain rest >>= fun _ => saveContext (fifoEngine B H)) (c, g)
        else saveContext (fifoEngine B H) (c, g))
      (if rest.length ≠ 0 then (keepRemain rest >>= fun _ => saveContext (fifoEngine B H)) (d, g')
        else saveContext (fifoEngine B H) (d, g')) := by
  split_ifs
  · obtain ⟨_, hbc', hbcl⟩ := hc.remainBuf
    obtain ⟨_, hbd', hbdl⟩ := hd.remainBuf
    rw [hbc] at hbc'
    rw [hbd] at hbd'
    cases hbc'
    cases hbd'
    rw [bind_of_ok (keepRemain_ok hr hbc hlen g),
      bind_of_ok (keepRemain_ok (ht.remainLen ▸ hr) hbd hlen' g')]
    refine saveContext_twin ?_ ?_ (ht.withPending (by simp)) hg
    · exact hc.withRemain (by simp; omega)
    · exact hd.withRemain (by simp; omega)
  · exact saveContext_twin hc hd ht hg

section Calls

variable {c d : Ctx Core} (hc : c.WF) (hd : d.WF) (ht : c.Twin d)
include hc hd ht

/-- An update on twins, from any engines: the same on both. -/
theorem stm32HashUpdate_twin (m : List UInt8) (h h' : Regs Core) :
    Twins (AfterCall h h') (stm32HashUpdate (fifoEngine B H) m (c, h))
      (stm32HashUpdate (fifoEngine B H) m (d, h')) := by
  have hb : (fifoEngine B H).NeverBusy := fifoEngine_neverBusy
  have hB := hc.blockSize_words
  obtain ⟨bc, hbc, hbcl⟩ := hc.remainBuf
  obtain ⟨bd, hbd, hbdl⟩ := hd.remainBuf
  obtain ⟨cc, hcc, hccl⟩ := hc.csr
  obtain ⟨cd, hcd, hcdl⟩ := hd.csr
  have hr := hc.remainLen
  have hqs := hc.queueSize
  rw [← ht.blockSize] at hbdl
  have hp : bc.take c.remainLen = bd.take c.remainLen := by
    rw [← Ctx.pending_of hbc, ht.pending, Ctx.pending_of hbd, ht.remainLen]
  have hg := Regs.same_restored (fifoEngine B H) hc.toAllocated ht hcc hcd h h'
  by_cases hm : m.length = 0
  · rw [stm32HashUpdate_of_length_eq_zero _ hm, stm32HashUpdate_of_length_eq_zero _ hm]
    exact .ret ht (.inl ⟨rfl, rfl⟩)
  by_cases hq : c.remainLen + m.length < c.queueSize
  · rw [stm32HashUpdate_of_append _ hcc hccl.ge hbc hm hq (by omega) h,
      stm32HashUpdate_of_append _ hcd hcdl.ge hbd hm (by rwa [← ht.remainLen, ← ht.queueSize])
        (by rw [← ht.remainLen]; omega) h', ← ht.remainLen]
    refine .ret (ht.withPending ?_) (.inr (congrArg Core.input hg.core))
    rw [List.take_left' (by simp; omega), List.take_left' (by simp; omega), hp]
  -- the flush writes the same words on both
  have hfc := flushRemain_eq hb hbc (by unfold roundup4; omega) m (h.restored (fifoEngine B H) c cc)
  have hfd := flushRemain_eq hb hbd (by unfold roundup4; rw [← ht.remainLen]; omega) m
    (h'.restored (fifoEngine B H) d cd)
  rw [← ht.remainLen, ← hp] at hfd
  have hq' : d.queueSize ≤ d.remainLen + m.length := by
    rw [← ht.queueSize, ← ht.remainLen]; omega
  split_ifs at hfc hfd with hal
  · rw [stm32HashUpdate_of_flush_none _ hcc hccl.ge hm (by omega) hfc,
      stm32HashUpdate_of_flush_none _ hcd hcdl.ge hm hq' hfd]
    exact .stuck
  generalize hbc₁ : List.replicate (roundup4 c.remainLen) 0 ++ bc.drop (roundup4 c.remainLen) =
    bc₁ at hfc
  generalize hbd₁ : List.replicate (roundup4 c.remainLen) 0 ++ bd.drop (roundup4 c.remainLen) =
    bd₁ at hfd
  have hl₁ : bc₁.length = c.blockSize + 4 ∧ bd₁.length = c.blockSize + 4 := by
    rw [← hbc₁, ← hbd₁]; unfold roundup4; simp; omega
  generalize m.drop (roundup4 c.remainLen - c.remainLen) = rest at hfc hfd
  generalize wordsOf _ = ws at hfc hfd
  -- and so does the FIFO loop
  obtain ⟨hn, hn'⟩ | ⟨rest', g, g', hlt, hl, hl', hg'⟩ := fifoLoop_rel hb Regs.Same
    (fun _ _ w hs => hs.writeDin w) (fun _ _ hs => hs.sr) ht.queueSize rest
    { c with remainBuf := some bc₁, remainLen := 0 }
    { d with remainBuf := some bd₁, remainLen := 0 } _ _ (hg.feed ws)
  · rw [stm32HashUpdate_of_loop_none _ hcc hccl.ge hm (by omega) hfc hn,
      stm32HashUpdate_of_loop_none _ hcd hcdl.ge hm hq' hfd hn']
    exact .stuck
  rw [stm32HashUpdate_of_blocks _ hcc hccl.ge hm (by omega) hfc hl,
    stm32HashUpdate_of_blocks _ hcd hcdl.ge hm hq' hfd hl']
  simp only
  apply Twins.afterCall
  refine keepSave_twin ?_ ?_ ?_ rfl rfl rfl (by omega) (by omega) hg'
  · exact hc.withRemain hl₁.1
  · exact hd.withRemain (by rw [hl₁.2, ht.blockSize])
  · refine (ht.withPending ?_).withQueueSize ?_
    · rfl
    · rw [ht.queueSize, ht.blockSize]

/-- `stm32_hash_final` on twins, from any engines: the same digest on both, and engines that
took the same input. -/
theorem stm32HashFinal_twin (key : List UInt8) (h h' : Regs Core) :
    Twins (AfterCall h h') (stm32HashFinal (fifoEngine B H) key (c, h))
      (stm32HashFinal (fifoEngine B H) key (d, h')) := by
  by_cases hk : key.length = 0 ∧ c.mode ≠ .hash
  · rw [stm32HashFinal_of_bad_key _ hk, stm32HashFinal_of_bad_key _ (ht.mode ▸ hk)]
    exact .ret ht (.inl ⟨rfl, rfl⟩)
  have hb : (fifoEngine B H).NeverBusy := fifoEngine_neverBusy
  have hB := hc.blockSize_words
  obtain ⟨bc, hbc, hbcl⟩ := hc.remainBuf
  obtain ⟨bd, hbd, hbdl⟩ := hd.remainBuf
  obtain ⟨cc, hcc, hccl⟩ := hc.csr
  obtain ⟨cd, hcd, hcdl⟩ := hd.csr
  have hr := hc.remainLen
  rw [← ht.blockSize] at hbdl
  have hp : bc.take c.remainLen = bd.take c.remainLen := by
    rw [← Ctx.pending_of hbc, ht.pending, Ctx.pending_of hbd, ht.remainLen]
  have hg := Regs.same_restored (fifoEngine B H) hc.toAllocated ht hcc hcd h h'
  have hlc : roundup4 c.remainLen ≤ bc.length := by unfold roundup4; omega
  have hld : roundup4 d.remainLen ≤ bd.length := by unfold roundup4; rw [← ht.remainLen]; omega
  rw [stm32HashFinal_eq hb hcc hccl.ge hbc hlc (by tauto) h,
    stm32HashFinal_eq hb hcd hcdl.ge hbd hld (by rw [← ht.mode]; tauto) h']
  simp only [fifoEngine_dcis, if_true]
  -- `NBLW` masks what differs: the engines take the same input
  have hin :
      ((finalRegs (fifoEngine B H) c bc key (h.restored (fifoEngine B H) c cc)).csr 0).input =
      ((finalRegs (fifoEngine B H) d bd key (h'.restored (fifoEngine B H) d cd)).csr 0).input := by
    rw [finalRegs_input _ hlc, finalRegs_input _ hld, hg.core, ← ht.remainLen, ← hp, ht.mode]
  rw [digestOf_fifo ht.digestU32 (by simp [ht.cr]) hin, ← ht.remainLen]
  split_ifs
  · exact .ret (ht.withPending (by simp)) (.inr hin)
  · exact .ret ht (.inr hin)

end Calls

/-- `hw_init` brings engines to the same state, whatever they held. -/
theorem hwInitRegs_same (ht : c.Twin d) (key : List UInt8) (h h' : Regs Core) :
    (hwInitRegs (fifoEngine B H) c key h).Same (hwInitRegs (fifoEngine B H) d key h') := by
  refine ⟨?_, by rw [hwInitRegs_core, hwInitRegs_core, ht.mode]⟩
  simp only [hwInitRegs, ← ht.caps, ← ht.algo, ← ht.mode, ← ht.blockSize]
  split <;> simp

/-- `stm32_hash_init` on twins, from any engines: the same on both. -/
theorem stm32HashInit_twin (hc : c.Allocated) (hd : d.Allocated) (ht : c.Twin d)
    (key : List UInt8) (h h' : Regs Core) :
    Twins (AfterCall h h') (stm32HashInit (fifoEngine B H) key (c, h))
      (stm32HashInit (fifoEngine B H) key (d, h')) := by
  by_cases hk : key.length = 0 ∧ c.mode ≠ .hash
  · rw [stm32HashInit_of_bad_key _ hk, stm32HashInit_of_bad_key _ (ht.mode ▸ hk)]
    exact .ret ht (.inl ⟨rfl, rfl⟩)
  have hb : (fifoEngine B H).NeverBusy := fifoEngine_neverBusy
  obtain ⟨bc, hbc, hbcl⟩ := hc.remainBuf
  obtain ⟨bd, hbd, hbdl⟩ := hd.remainBuf
  rw [stm32HashInit_eq hb hbc (by omega) (by tauto),
    stm32HashInit_eq hb hbd (by omega) (by rw [← ht.mode]; tauto)]
  apply Twins.afterCall
  refine saveContext_twin ?_ ?_ ((ht.withPending ?_).withQueueSize ?_) (hwInitRegs_same ht key h h')
  · exact hc.withRemain (by simp [hbcl])
  · exact hd.withRemain (by simp [hbdl])
  · simp
  · rw [ht.blockSize]

/-- Every call on twins, from any engines: the same on both. -/
theorem Call.run_twin (hc : c.WF) (hd : d.WF) (ht : c.Twin d) (k : Call) (h h' : Regs Core) :
    Twins (AfterCall h h') (k.run (fifoEngine B H) (c, h)) (k.run (fifoEngine B H) (d, h')) := by
  cases k with
  | init key =>
    rw [Call.run_init, Call.run_init]
    exact (stm32HashInit_twin hc.toAllocated hd.toAllocated ht key h h').map _
  | update m =>
    rw [Call.run_update, Call.run_update]
    exact (stm32HashUpdate_twin hc hd ht m h h').map _
  | final key => exact stm32HashFinal_twin hc hd ht key h h'

/-- **Twins are indistinguishable: every run of calls returns the same on both, and leaves
engines that took the same input.** -/
theorem runCalls_twin : ∀ (ks : List Call) {c d : Ctx Core} {h h' : Regs Core}, c.WF → d.WF →
    c.Twin d → (h.csr 0).input = (h'.csr 0).input →
    (runCalls (fifoEngine B H) ks (c, h)).1 = (runCalls (fifoEngine B H) ks (d, h')).1 ∧
      ((runCalls (fifoEngine B H) ks (c, h)).2.map fun s => (s.2.csr 0).input) =
        ((runCalls (fifoEngine B H) ks (d, h')).2.map fun s => (s.2.csr 0).input)
  | [], _, _, _, _, _, _, _, hin => by simp [runCalls, hin]
  | k :: ks, c, d, h, h', hc, hd, ht, hin => by
    rcases (@Call.run_twin B H c d hc hd ht k h h').eq_or with
      ⟨hx, hy⟩ | ⟨r, c', d', g, g', hx, hy, ht', hR⟩
    · simp [runCalls, hx, hy]
    · have hin' : (g.csr 0).input = (g'.csr 0).input := by
        rcases hR with ⟨rfl, rfl⟩ | hR
        · exact hin
        · exact hR
      have ih := runCalls_twin ks (Call.run_wf fifoEngine_neverBusy hc k hx)
        (Call.run_wf fifoEngine_neverBusy hd k hy) ht' hin'
      simp only [runCalls, hx, hy]
      exact ⟨by rw [ih.1], ih.2⟩

/-- No run of calls tells `c` from `d` on the engine `E`: from the same engine state, every
run of calls returns the same on both, and leaves engines that took the same input. -/
def Indistinguishable (E : Engine Core) (c d : Ctx Core) : Prop :=
  ∀ (ks : List Call) (h : Regs Core),
    (runCalls E ks (c, h)).1 = (runCalls E ks (d, h)).1 ∧
      ((runCalls E ks (c, h)).2.map fun s => (s.2.csr 0).input) =
        ((runCalls E ks (d, h)).2.map fun s => (s.2.csr 0).input)

theorem Ctx.Twin.indistinguishable (hc : c.WF) (hd : d.WF) (ht : c.Twin d) :
    Indistinguishable (fifoEngine B H) c d :=
  fun ks _ => runCalls_twin ks hc hd ht rfl

/-! ### Forking a session

`stm32_hash_deep_copy` copies every field of the source but the two buffer pointers, then the
source's pending bytes and saved registers into the destination's own buffers.  The bytes of
the destination's pending buffer past `remain.len` stay as they were; `stm32_hash_final`
writes the word they share with the last pending bytes to the FIFO, and `NBLW` masks them.
-/

/-- The copy is a twin of its source. -/
theorem Ctx.Twin.of_copy {s : Ctx Core} {sb : List UInt8} (hsb : s.remainBuf = some sb)
    (hl : s.remainLen ≤ sb.length) (db : List UInt8) :
    ({ s with remainBuf := some (sb.take s.remainLen ++ db.drop s.remainLen) } : Ctx Core).Twin s :=
  { Ctx.Twin.refl s with
    pending := by rw [Ctx.pending_of rfl, Ctx.pending_of hsb, List.take_left' (by simp; omega)] }

/-- **`stm32_hash_deep_copy` from a session that `stm32_hash_init` and updates reached, into
any session allocated for the same mode and algorithm, succeeds.  The copy is the source with
the destination's own pending buffer, whose first `remain.len` bytes are now the source's, and
no run of calls tells the copy from the source: the destination's stale bytes never reach the
engine's input.** -/
theorem deep_copy_forks {s d : Ctx Core} (hs : Reachable (fifoEngine B H) s) (hd : d.Allocated)
    (hmode : d.mode = s.mode) (halgo : d.algo = s.algo) :
    ∃ sb db, s.remainBuf = some sb ∧ d.remainBuf = some db ∧
      stm32HashDeepCopy d s =
        some (.success, { s with remainBuf := some (sb.take s.remainLen ++ db.drop s.remainLen) }) ∧
      Indistinguishable (fifoEngine B H)
        { s with remainBuf := some (sb.take s.remainLen ++ db.drop s.remainLen) } s := by
  have hw := hs.wf fifoEngine_neverBusy
  obtain ⟨sb, db, hsb, hdb, hcopy⟩ :=
    stm32HashDeepCopy_eq hd hw.toAllocated hmode halgo hw.remainLen
  obtain ⟨_, hsb', hsbl⟩ := hw.remainBuf
  obtain ⟨_, hdb', hdbl⟩ := hd.remainBuf
  rw [hsb] at hsb'
  rw [hdb] at hdb'
  cases hsb'
  cases hdb'
  have hB : d.blockSize = s.blockSize := by rw [hd.blockSize, hw.blockSize, halgo]
  have hr := hw.remainLen
  have hcw : ({ s with remainBuf := some (sb.take s.remainLen ++ db.drop s.remainLen) } :
      Ctx Core).WF :=
    ⟨⟨hw.blockSize, hw.saveMode, ⟨_, rfl, by simp; omega⟩, hw.csr⟩, hw.remainLen, hw.queueSize⟩
  exact ⟨sb, db, hsb, hdb, hcopy,
    (Ctx.Twin.of_copy hsb (by omega) db).indistinguishable hcw hw⟩

/-- An SHA-256 session whose pending buffer still holds the bytes of an earlier use. -/
def staleSha256 : Ctx Core := { mp15Sha256 with remainBuf := some (List.replicate 68 0xA5) }

theorem staleSha256_allocated : staleSha256.Allocated :=
  ⟨mp15Sha256_allocated.blockSize, mp15Sha256_allocated.saveMode,
    ⟨_, rfl, by rw [List.length_replicate]; rfl⟩, mp15Sha256_allocated.csr⟩

/-- SHA-256: a copy, into a session with stale pending bytes, of a session that holds three
pending bytes after `stm32_hash_init` and an update. -/
theorem mp15Sha256_fork : ∃ c₁ h₁ c₂ h₂,
    stm32HashInit (fifoEngine 64 zeroDigest) [] (mp15Sha256, resetRegs) = some (.ok (), c₁, h₁) ∧
    stm32HashUpdate (fifoEngine 64 zeroDigest) [1, 2, 3] (c₁, h₁) =
      some (.error .success, c₂, h₂) ∧ c₂.remainLen = 3 ∧
    Reachable (fifoEngine 64 zeroDigest) c₂ ∧ staleSha256.Allocated ∧
    staleSha256.mode = c₂.mode ∧ staleSha256.algo = c₂.algo ∧
    ∃ sb db, c₂.remainBuf = some sb ∧ staleSha256.remainBuf = some db ∧
      stm32HashDeepCopy staleSha256 c₂ = some (.success,
        { c₂ with remainBuf := some (sb.take c₂.remainLen ++ db.drop c₂.remainLen) }) ∧
      Indistinguishable (fifoEngine 64 zeroDigest)
        { c₂ with remainBuf := some (sb.take c₂.remainLen ++ db.drop c₂.remainLen) } c₂ := by
  obtain ⟨c₁, h₁, hinit, hc₁, hmode, halgo, hB, -, hr, hq, -⟩ :=
    stm32HashInit_fifo 64 zeroDigest mp15Sha256_allocated
      (show ([] : List UInt8).length ≠ 0 ∨ mp15Sha256.mode = .hash from .inr rfl) resetRegs
  obtain ⟨buf, hbuf, hbl⟩ := hc₁.remainBuf
  obtain ⟨csr, hcsr, hcl⟩ := hc₁.csr
  have hu := stm32HashUpdate_of_append (fifoEngine 64 zeroDigest) hcsr hcl.ge hbuf
    (show ([1, 2, 3] : List UInt8).length ≠ 0 by decide) (by rw [hr, hq]; decide)
    (by rw [hr, hbl, hB]; decide) h₁
  have hreach : Reachable (fifoEngine 64 zeroDigest) _ :=
    .update (.init mp15Sha256_allocated hinit) hu
  exact ⟨c₁, h₁, _, _, hinit, hu, by simp [hr], hreach, staleSha256_allocated, hmode.symm,
    halgo.symm, deep_copy_forks hreach staleSha256_allocated hmode.symm halgo.symm⟩

end Stm32Hash
