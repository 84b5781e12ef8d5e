/-
Engines whose behaviour `HASH_CR` and the context registers determine, and what one session's
calls do on them.

What such an engine shows and does depends on `HASH_CR` and on the context registers it uses
while `HASH_CR` holds a value `cr`, `L cr` (`Engine.Determined`); `DCAL` may read as well the
`NBLW` field of the value it is written with.  Nothing depends on `HASH_IMR`, on the rest of
`HASH_STR`, or on the context registers outside `L cr`.  A session's calls write two kinds of
`HASH_CR`: the one `hw_init` writes for the session's configuration and key, and the saved one
with `INIT` that `restore_context` writes.  The session's layout must save every register the
engine uses under both (`Ctx.Covers`).

Then every call that reaches the engine first puts the registers in use in a state that the
session alone decides: `INIT` resets them, and `restore_context` writes each of them from the
slot it was saved into.  Two states of one session that differ only in the `IMR` and `STR`
they saved, and in the words saved for registers the engine does not use (`Ctx.Alike`), get
the same from every call, from any engines whatever they held, and are left alike
(`Call.run_alike`).  That is the step of the isolation proof of `Stm32Hash/Isolation.lean`.
Alike states hold the same pending buffer, past `remain.len` too: `stm32_hash_final` writes the
bytes of its last word past `remain.len` to `HASH_DIN`, and only an engine that masks them with
`NBLW`, as the FIFO model does (`Stm32Hash/Twin.lean`), ignores them.
-/
import Stm32Hash.Session

namespace Stm32Hash

open Drv

variable {V : Type} {L : BitVec 32 → Nat → Prop}

/-! ### The class -/

/-- Two register files that agree on `HASH_CR` and on the context registers the engine uses
under it. -/
structure Regs.Agree (L : BitVec 32 → Nat → Prop) (g g' : Regs V) : Prop where
  cr : g.cr = g'.cr
  csr : ∀ j, L g.cr j → g.csr j = g'.csr j

/-- An engine whose behaviour `HASH_CR` and the context registers `L cr` determine, `L cr`
being the registers it uses while `HASH_CR` holds `cr`. -/
structure Engine.Determined (E : Engine V) (L : BitVec 32 → Nat → Prop) : Prop where
  /-- `HASH_SR`. -/
  sr : ∀ {g g' : Regs V}, g.Agree L g' → E.sr g = E.sr g'
  /-- `HASH_HR(x)`. -/
  hr : ∀ {g g' : Regs V}, g.Agree L g' → E.hr g = E.hr g'
  /-- What a word written to `HASH_DIN` leaves in the registers in use. -/
  din : ∀ {g g' : Regs V}, g.Agree L g' → ∀ w j, L g.cr j → E.din g w j = E.din g' w j
  /-- What `DCAL` leaves there, which may read the `NBLW` written with it. -/
  dcal : ∀ {g g' : Regs V}, g.Agree L g' →
    g.str &&& hashStrNblwMask = g'.str &&& hashStrNblwMask →
    ∀ j, L g.cr j → E.dcal g j = E.dcal g' j
  /-- What `INIT` leaves there, which `HASH_CR` alone decides. -/
  init : ∀ g g' : Regs V, g.cr = g'.cr → ∀ j, L g.cr j → E.init g j = E.init g' j

/-- The session saves every context register the engine uses under a `HASH_CR` its calls
write: the one `restore_context` writes, and the one `hw_init` writes for any key. -/
structure Ctx.Covers (L : BitVec 32 → Nat → Prop) (c : Ctx V) : Prop where
  restore : ∀ j, L (c.cr ||| hashCrInit) j → c.saveRegs.Saves j
  init : ∀ key j, L (c.config.initCr key) j → c.saveRegs.Saves j

/-- The layout is fixed by the configuration. -/
theorem Ctx.Covers.of_config {c d : Ctx V} (hcov : c.Covers L) (hcr : d.cr = c.cr)
    (hn : d.config = c.config) : d.Covers L := by
  have hs : d.saveRegs = c.saveRegs := by
    have hm : d.mode = c.mode := congrArg Config.mode hn
    have hsm : d.saveMode = c.saveMode := congrArg Config.saveMode hn
    rw [Ctx.saveRegs, Ctx.saveRegs, hm, hsm]
  exact ⟨fun j hj => hs ▸ hcov.restore j (hcr ▸ hj), fun key j hj => hs ▸ hcov.init key j (hn ▸ hj)⟩

/-! ### Register files that agree

Each write the driver makes keeps two register files in agreement, and a write of `HASH_CR`
with `INIT` brings any two to agree.
-/

namespace Regs.Agree

variable {E : Engine V} (hE : E.Determined L) {g g' : Regs V}
include hE

theorem writeDin (hg : g.Agree L g') (w : Word) : (g.writeDin E w).Agree L (g'.writeDin E w) :=
  ⟨hg.cr, hE.din hg w⟩

theorem feed (hg : g.Agree L g') (ws : List Word) : (g.feed E ws).Agree L (g'.feed E ws) := by
  induction ws generalizing g g' with
  | nil => exact hg
  | cons w ws ih => exact ih (hg.writeDin hE w)

/-- A write of `HASH_CR` with `INIT` set, whatever the registers held. -/
theorem writeCr_init (g g' : Regs V) {v : BitVec 32} (hv : v ||| hashCrInit = v) :
    (g.writeCr E v).Agree L (g'.writeCr E v) := by
  have hi : v &&& hashCrInit ≠ 0 := by
    rw [← hv]
    exact fun h => by simpa [hashCrInit] using congrArg (BitVec.getLsbD · 2) h
  refine ⟨by simp, fun j hj => ?_⟩
  simp only [Regs.writeCr, if_neg hi] at hj ⊢
  exact hE.init { g with cr := v } { g' with cr := v } rfl j hj

/-- `DCAL`, after the same `NBLW`. -/
theorem setbitsDcal (hg : g.Agree L g')
    (hn : g.str &&& hashStrNblwMask = g'.str &&& hashStrNblwMask) :
    (g.setbitsStr E hashStrDcal).Agree L (g'.setbitsStr E hashStrDcal) := by
  rw [Regs.setbitsStr_dcal, Regs.setbitsStr_dcal]
  exact ⟨hg.cr, hE.dcal hg hn⟩

omit hE in
/-- A write of `NBLW` starts nothing. -/
theorem clrsetbitsNblw (hg : g.Agree L g') {x : BitVec 32} (hx : x &&& hashStrDcal = 0) :
    (g.clrsetbitsStr E hashStrNblwMask x).Agree L (g'.clrsetbitsStr E hashStrNblwMask x) :=
  ⟨by simp [hg.cr], by simpa [Regs.clrsetbitsStr_csr _ _ hx] using hg.csr⟩

/-- The end of a message: `NBLW`, then `DCAL`. -/
theorem close (hg : g.Agree L g') {x : BitVec 32}
    (hx : x &&& ~~~hashStrNblwMask = 0 ∧ x &&& hashStrDcal = 0) :
    ((g.clrsetbitsStr E hashStrNblwMask x).setbitsStr E hashStrDcal).Agree L
      ((g'.clrsetbitsStr E hashStrNblwMask x).setbitsStr E hashStrDcal) :=
  (hg.clrsetbitsNblw hx.2).setbitsDcal hE
    (by rw [Regs.clrsetbitsStr_nblw _ _ hx.1, Regs.clrsetbitsStr_nblw _ _ hx.1])

theorem keyed (hg : g.Agree L g') (key : List UInt8) : (g.keyed E key).Agree L (g'.keyed E key) := by
  have hn := nblw_fits (Nat.mod_lt key.length (by decide : 0 < 4))
  refine ((hg.clrsetbitsNblw hn.2).feed hE _).setbitsDcal hE ?_
  simp [Regs.clrsetbitsStr_nblw _ _ hn.1]

end Regs.Agree

section Registers

variable {E : Engine V} (hE : E.Determined L)
include hE

/-- `hw_init` brings any two register files to agree. -/
theorem hwInitRegs_agree (c : Ctx V) (key : List UInt8) (h h' : Regs V) :
    (hwInitRegs E c key h).Agree L (hwInitRegs E c key h') := by
  have hw := Regs.Agree.writeCr_init hE h h' (initCr_or_init c.config key)
  rw [hwInitRegs_eq, hwInitRegs_eq]
  split
  · exact hw.keyed hE key
  · exact hw

theorem finalRegs_agree {g g' : Regs V} (hg : g.Agree L g') (c : Ctx V) (buf key : List UInt8) :
    (finalRegs E c buf key g).Agree L (finalRegs E c buf key g') := by
  have hn := nblw_fits (Nat.mod_lt c.remainLen (by decide : 0 < 4))
  have hz : (0 : BitVec 32) &&& ~~~hashStrNblwMask = 0 ∧ (0 : BitVec 32) &&& hashStrDcal = 0 := by
    decide
  by_cases hr : c.remainLen = 0 <;> by_cases hm : c.mode = .hmac <;>
    simp only [finalRegs, hr, hm, ne_eq, not_true_eq_false, not_false_eq_true, if_true, if_false,
      Regs.clrbitsStr_eq]
  · exact (hg.close hE hz).keyed hE key
  · exact hg.close hE hz
  · exact ((hg.feed hE _).close hE hn).keyed hE key
  · exact (hg.feed hE _).close hE hn

end Registers

/-! ### Alike states of a session -/

/-- Two states of one session that no engine of the class tells apart: they differ at most in
the `IMR` and `STR` they saved, and in the words saved for the context registers the engine
does not use under the `HASH_CR` that `restore_context` writes. -/
structure Ctx.Alike (L : BitVec 32 → Nat → Prop) (c d : Ctx V) : Prop where
  caps : c.caps = d.caps
  mode : c.mode = d.mode
  algo : c.algo = d.algo
  digestU32 : c.digestU32 = d.digestU32
  blockSize : c.blockSize = d.blockSize
  saveMode : c.saveMode = d.saveMode
  queueSize : c.queueSize = d.queueSize
  remainBuf : c.remainBuf = d.remainBuf
  remainLen : c.remainLen = d.remainLen
  cr : c.cr = d.cr
  csr : ∀ j i, L (c.cr ||| hashCrInit) j → c.saveRegs.slot j = some i →
    (c.csr.getD [])[i]? = (d.csr.getD [])[i]?

namespace Ctx.Alike

variable {c d : Ctx V}

theorem refl (c : Ctx V) : c.Alike L c :=
  ⟨rfl, rfl, rfl, rfl, rfl, rfl, rfl, rfl, rfl, rfl, fun _ _ _ _ => rfl⟩

theorem saveRegs (hs : c.Alike L d) : c.saveRegs = d.saveRegs := by
  rw [Ctx.saveRegs, Ctx.saveRegs, hs.saveMode, hs.mode]

theorem config (hs : c.Alike L d) : c.config = d.config := by
  simp only [Ctx.config, hs.caps, hs.mode, hs.algo, hs.digestU32, hs.blockSize, hs.saveMode]

/-- New pending bytes, the same on both. -/
theorem withRemain (hs : c.Alike L d) (buf : Option (List UInt8)) (n : Nat) :
    ({ c with remainBuf := buf, remainLen := n } : Ctx V).Alike L
      { d with remainBuf := buf, remainLen := n } :=
  { hs with remainBuf := rfl, remainLen := rfl }

/-- What `save_context` records from register files that agree, under a `HASH_CR` with `INIT`
set. -/
theorem saved (hs : c.Alike L d) {g g' : Regs V} (hg : g.Agree L g')
    (hI : g.cr ||| hashCrInit = g.cr) :
    ({ c with imr := g.imr, str := g.str, cr := g.cr,
              csr := some (g.snapshot c.saveRegs) } : Ctx V).Alike L
      { d with imr := g'.imr, str := g'.str, cr := g'.cr,
               csr := some (g'.snapshot d.saveRegs) } :=
  { hs with
    cr := hg.cr
    csr := fun j i hj hi => by
      rw [hI] at hj
      have hi₀ : c.saveRegs.slot j = some i := hi
      have hi' : d.saveRegs.slot j = some i := hs.saveRegs ▸ hi₀
      simp only [Option.getD_some, snapshot_slot g hi₀, snapshot_slot g' hi', hg.csr j hj] }

end Ctx.Alike

/-- `restore_context` brings any two register files to agree, from alike states of a session
whose layout saves the registers in use. -/
theorem Regs.Agree.restored (E : Engine V) {c d : Ctx V} (hs : c.Alike L d)
    (hv : ∀ j, L (c.cr ||| hashCrInit) j → c.saveRegs.Saves j) {a b : List V}
    (ha : c.csr = some a) (hb : d.csr = some b) (hla : c.saveRegs.size ≤ a.length)
    (hlb : d.saveRegs.size ≤ b.length) (h h' : Regs V) :
    (h.restored E c a).Agree L (h'.restored E d b) := by
  refine ⟨by simp [hs.cr], fun j hj => ?_⟩
  rw [Regs.restored_cr] at hj
  obtain ⟨i, hi⟩ := Option.isSome_iff_exists.mp (SaveRegs.slot_isSome.mpr (hv j hj))
  have hi' : d.saveRegs.slot j = some i := hs.saveRegs ▸ hi
  have hlt := SaveRegs.slot_lt hi
  have hlb' : c.saveRegs.size ≤ b.length := hs.saveRegs ▸ hlb
  have hab := hs.csr j i hj hi
  rw [ha, hb, Option.getD_some, Option.getD_some, List.getElem?_eq_getElem (by omega),
    List.getElem?_eq_getElem (by omega), Option.some_inj] at hab
  rw [restored_csr_of_slot E c hi (by omega), restored_csr_of_slot E d hi' (by omega), hab]

/-! ### Runs of one call on alike states -/

/-- Two runs of a call that no client tells apart: both run into undefined behaviour, or both
return the same and leave alike states of the session, the first still covering the registers
in use. -/
inductive RunsAlike {α : Type} (L : BitVec 32 → Nat → Prop) :
    Option (Except TeeResult α × Ctx V × Regs V) →
      Option (Except TeeResult α × Ctx V × Regs V) → Prop
  | stuck : RunsAlike L none none
  | ret {r : Except TeeResult α} {c d : Ctx V} {g g' : Regs V} :
      c.Alike L d → c.Covers L → RunsAlike L (some (r, c, g)) (some (r, d, g'))

namespace RunsAlike

variable {α : Type} {x y : Option (Except TeeResult α × Ctx V × Regs V)}

theorem map {β : Type} (hx : RunsAlike L x y) (f : Except TeeResult α → Except TeeResult β) :
    RunsAlike L (x.map fun p => (f p.1, p.2)) (y.map fun p => (f p.1, p.2)) := by
  cases hx with
  | stuck => exact .stuck
  | ret hs hcov => exact .ret hs hcov

theorem eq_or (hx : RunsAlike L x y) : (x = none ∧ y = none) ∨
    ∃ r c d g g', x = some (r, c, g) ∧ y = some (r, d, g') ∧ c.Alike L d ∧ c.Covers L := by
  cases hx with
  | stuck => exact .inl ⟨rfl, rfl⟩
  | ret hs hcov => exact .inr ⟨_, _, _, _, _, rfl, rfl, hs, hcov⟩

end RunsAlike

section Calls

variable {E : Engine V} (hb : E.NeverBusy) (hE : E.Determined L) {c d : Ctx V}
include hb hE

omit hb in
/-- `save_context` on alike states, from register files that agree, under a `HASH_CR` with
`INIT` set whose registers in use the session saves. -/
theorem saveContext_alike (hc : c.Allocated) (hd : d.Allocated) (hs : c.Alike L d)
    (hcov : c.Covers L) {g g' : Regs V} (hg : g.Agree L g') (hI : g.cr ||| hashCrInit = g.cr)
    (hv : ∀ j, L g.cr j → c.saveRegs.Saves j) :
    RunsAlike L (saveContext E (c, g)) (saveContext E (d, g')) := by
  obtain ⟨cc, hcc, hccl⟩ := hc.csr
  obtain ⟨cd, hcd, hcdl⟩ := hd.csr
  rw [saveContext_eq E c g hcc hccl, saveContext_eq E d g' hcd hcdl, hE.sr hg]
  split_ifs
  · exact .ret hs hcov
  · exact .ret (hs.saved hg hI) ⟨fun j hj => hv j (hI ▸ hj), hcov.init⟩
  · exact .ret hs hcov

omit hb in
/-- The end of an update with nothing pending: the bytes the FIFO loop left are kept, and the
context is saved. -/
theorem keepSave_alike (hc : c.Allocated) (hd : d.Allocated) (hs : c.Alike L d)
    (hcov : c.Covers L) (hr : c.remainLen = 0) {buf : List UInt8} (hbuf : c.remainBuf = some buf)
    {rest : List UInt8} (hlen : rest.length ≤ buf.length) {g g' : Regs V} (hg : g.Agree L g')
    (hI : g.cr ||| hashCrInit = g.cr) (hv : ∀ j, L g.cr j → c.saveRegs.Saves j) :
    RunsAlike L
      (if rest.length ≠ 0 then (keepRemain rest >>= fun _ => saveContext E) (c, g)
        else saveContext E (c, g))
      (if rest.length ≠ 0 then (keepRemain rest >>= fun _ => saveContext E) (d, g')
        else saveContext E (d, g')) := by
  split_ifs
  · obtain ⟨_, hbuf', hbl⟩ := hc.remainBuf
    rw [hbuf] at hbuf'
    cases hbuf'
    rw [bind_of_ok (keepRemain_ok hr hbuf hlen g),
      bind_of_ok (keepRemain_ok (hs.remainLen ▸ hr) (hs.remainBuf ▸ hbuf) hlen g')]
    refine saveContext_alike hE (hc.withRemain ?_) (hd.withRemain ?_) (hs.withRemain _ _) ?_ hg hI hv
    · simp; omega
    · rw [← hs.blockSize]; simp; omega
    · exact hcov.of_config rfl rfl
  · exact saveContext_alike hE hc hd hs hcov hg hI hv

/-- `stm32_hash_init` on alike states, from any engines. -/
theorem stm32HashInit_alike (hc : c.Allocated) (hd : d.Allocated) (hs : c.Alike L d)
    (hcov : c.Covers L) (key : List UInt8) (h h' : Regs V) :
    RunsAlike L (stm32HashInit E key (c, h)) (stm32HashInit E key (d, h')) := by
  by_cases hk : key.length = 0 ∧ c.mode ≠ .hash
  · rw [stm32HashInit_of_bad_key _ hk, stm32HashInit_of_bad_key _ (hs.mode ▸ hk)]
    exact .ret hs hcov
  obtain ⟨bc, hbc, hbcl⟩ := hc.remainBuf
  rw [stm32HashInit_eq hb hbc (by omega) (by tauto),
    stm32HashInit_eq hb (hs.remainBuf ▸ hbc) (by rw [← hs.blockSize]; omega)
      (by rw [← hs.mode]; tauto)]
  have hg : (hwInitRegs E c key h).Agree L (hwInitRegs E d key h') := by
    rw [hwInitRegs_eq E d, ← hs.mode, ← hs.config, ← hwInitRegs_eq]
    exact hwInitRegs_agree hE c key h h'
  refine saveContext_alike hE ?_ ?_ ?_ ?_ hg ?_ ?_
  · exact hc.withRemain (by simp [hbcl])
  · exact hd.withRemain (by simp [hbcl, ← hs.blockSize])
  · exact { hs with
      remainBuf := by rw [hs.blockSize]
      remainLen := rfl
      queueSize := by rw [hs.blockSize] }
  · exact hcov.of_config rfl rfl
  · rw [hwInitRegs_cr, initCr_or_init]
  · rw [hwInitRegs_cr]
    exact hcov.init key

section WF

variable (hc : c.WF) (hd : d.WF) (hs : c.Alike L d) (hcov : c.Covers L)
include hc hd hs hcov

/-- An update on alike states, from any engines. -/
theorem stm32HashUpdate_alike (m : List UInt8) (h h' : Regs V) :
    RunsAlike L (stm32HashUpdate E m (c, h)) (stm32HashUpdate E m (d, h')) := by
  have hB := hc.blockSize_words
  obtain ⟨bc, hbc, hbcl⟩ := hc.remainBuf
  obtain ⟨cc, hcc, hccl⟩ := hc.csr
  obtain ⟨cd, hcd, hcdl⟩ := hd.csr
  have hr := hc.remainLen
  have hqs := hc.queueSize
  have hbd : d.remainBuf = some bc := hs.remainBuf ▸ hbc
  by_cases hm : m.length = 0
  · rw [stm32HashUpdate_of_length_eq_zero _ hm, stm32HashUpdate_of_length_eq_zero _ hm]
    exact .ret hs hcov
  by_cases hq : c.remainLen + m.length < c.queueSize
  · rw [stm32HashUpdate_of_append _ hcc hccl.ge hbc hm hq (by omega) h,
      stm32HashUpdate_of_append _ hcd hcdl.ge hbd hm (by rwa [← hs.remainLen, ← hs.queueSize])
        (by rw [← hs.remainLen]; omega) h', ← hs.remainLen]
    exact .ret (hs.withRemain _ _) (hcov.of_config rfl rfl)
  -- the flush writes the same words on both, to registers that agree
  have hg := Regs.Agree.restored E hs hcov.restore hcc hcd hccl.ge hcdl.ge h h'
  have hfc := flushRemain_eq hb hbc (by unfold roundup4; omega) m (h.restored E c cc)
  have hfd := flushRemain_eq hb hbd (by unfold roundup4; rw [← hs.remainLen]; omega) m
    (h'.restored E d cd)
  rw [← hs.remainLen] at hfd
  have hq' : d.queueSize ≤ d.remainLen + m.length := by
    rw [← hs.queueSize, ← hs.remainLen]; omega
  split_ifs at hfc hfd with hal
  · rw [stm32HashUpdate_of_flush_none _ hcc hccl.ge hm (by omega) hfc,
      stm32HashUpdate_of_flush_none _ hcd hcdl.ge hm hq' hfd]
    exact .stuck
  generalize hbc₁ : List.replicate (roundup4 c.remainLen) 0 ++ bc.drop (roundup4 c.remainLen) =
    bc₁ at hfc hfd
  have hl₁ : bc₁.length = c.blockSize + 4 := by rw [← hbc₁]; unfold roundup4; simp; omega
  generalize m.drop (roundup4 c.remainLen - c.remainLen) = rest at hfc hfd
  generalize wordsOf _ = ws at hfc hfd
  -- and so does the FIFO loop, which keeps `HASH_CR`
  obtain ⟨hn, hn'⟩ | ⟨rest', g, g', hlt, hl, hl', hg', hcr⟩ := fifoLoop_rel hb
    (fun g g' => g.Agree L g' ∧ g.cr = c.cr ||| hashCrInit)
    (fun _ _ w hR => ⟨hR.1.writeDin hE w, hR.2⟩) (fun _ _ hR => hE.sr hR.1) hs.queueSize rest
    { c with remainBuf := some bc₁, remainLen := 0 } { d with remainBuf := some bc₁, remainLen := 0 }
    _ _ ⟨hg.feed hE ws, by simp⟩
  · rw [stm32HashUpdate_of_loop_none _ hcc hccl.ge hm (by omega) hfc hn,
      stm32HashUpdate_of_loop_none _ hcd hcdl.ge hm hq' hfd hn']
    exact .stuck
  rw [stm32HashUpdate_of_blocks _ hcc hccl.ge hm (by omega) hfc hl,
    stm32HashUpdate_of_blocks _ hcd hcdl.ge hm hq' hfd hl']
  refine keepSave_alike hE (hc.withRemain hl₁) (hd.withRemain (by rw [hl₁, hs.blockSize])) ?_ ?_
    rfl rfl (by omega) hg' ?_ ?_
  · exact { hs with
      remainBuf := rfl
      remainLen := rfl
      queueSize := by simp only [hs.queueSize, hs.blockSize] }
  · exact hcov.of_config rfl rfl
  · rw [hcr, BitVec.or_assoc, BitVec.or_self]
  · rw [hcr]
    exact hcov.restore

/-- `stm32_hash_final` on alike states, from any engines: the same digest on both. -/
theorem stm32HashFinal_alike (key : List UInt8) (h h' : Regs V) :
    RunsAlike L (stm32HashFinal E key (c, h)) (stm32HashFinal E key (d, h')) := by
  by_cases hk : key.length = 0 ∧ c.mode ≠ .hash
  · rw [stm32HashFinal_of_bad_key _ hk, stm32HashFinal_of_bad_key _ (hs.mode ▸ hk)]
    exact .ret hs hcov
  have hB := hc.blockSize_words
  obtain ⟨bc, hbc, hbcl⟩ := hc.remainBuf
  obtain ⟨cc, hcc, hccl⟩ := hc.csr
  obtain ⟨cd, hcd, hcdl⟩ := hd.csr
  have hlc : roundup4 c.remainLen ≤ bc.length := by
    have := hc.remainLen; unfold roundup4; omega
  rw [stm32HashFinal_eq hb hcc hccl.ge hbc hlc (by tauto) h,
    stm32HashFinal_eq hb hcd hcdl.ge (hs.remainBuf ▸ hbc) (by rwa [← hs.remainLen])
      (by rw [← hs.mode]; tauto) h']
  -- the engines end in states that agree, whatever they held before
  have hfin : finalRegs E d bc key (h'.restored E d cd) =
      finalRegs E c bc key (h'.restored E d cd) := by
    simp only [finalRegs, hs.remainLen, hs.mode]
  have hg := finalRegs_agree hE (Regs.Agree.restored E hs hcov.restore hcc hcd hccl.ge hcdl.ge
    h h') c bc key
  rw [← hfin] at hg
  have hdig : digestOf E d (finalRegs E d bc key (h'.restored E d cd)) =
      digestOf E c (finalRegs E c bc key (h.restored E c cc)) := by
    simp only [digestOf, hs.digestU32, hE.hr hg]
  dsimp only
  rw [hE.sr hg, hdig, ← hs.remainLen]
  split_ifs <;> first
    | exact .ret hs hcov
    | exact .ret (hs.withRemain _ _) (hcov.of_config rfl rfl)

/-- **Every call on alike states of a session that covers the registers in use, from any
engines whatever they held: both run into undefined behaviour, or both return the same and
leave alike states.** -/
theorem Call.run_alike (k : Call) (h h' : Regs V) :
    RunsAlike L (k.run E (c, h)) (k.run E (d, h')) := by
  cases k with
  | init key =>
    rw [Call.run_init, Call.run_init]
    exact (stm32HashInit_alike hb hE hc.toAllocated hd.toAllocated hs hcov key h h').map _
  | update m =>
    rw [Call.run_update, Call.run_update]
    exact (stm32HashUpdate_alike hb hE hc hd hs hcov m h h').map _
  | final key => exact stm32HashFinal_alike hb hE hc hd hs hcov key h h'

end WF

/-- Every call keeps a session covering the registers in use. -/
theorem Call.run_covers (hc : c.WF) (hcov : c.Covers L) (k : Call) {h h' : Regs V} {c' : Ctx V}
    {r : Except TeeResult (List UInt8)} (hk : k.run E (c, h) = some (r, c', h')) : c'.Covers L := by
  rcases (Call.run_alike hb hE hc hc (.refl c) hcov k h h).eq_or with
    ⟨hx, -⟩ | ⟨_, _, _, _, _, hx, -, -, hcov'⟩ <;> rw [hx] at hk <;> cases hk
  exact hcov'

end Calls

end Stm32Hash
