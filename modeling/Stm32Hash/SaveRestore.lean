/-
Saving and restoring a context is a round trip.

`save_context` copies `nb_reg` context registers from `first`, then `hmac_nb_reg` more from
`hmac_first`, into consecutive slots of `c->csr`; `restore_context` writes the slots back to
the registers they came from, in the same order.  For SHA-3 in HMAC mode the two ranges
overlap (registers 16 to 71 are in both), so restoring writes those registers twice; the
second write carries the value the second loop saved, which is the same register's value
again.  `SaveRegs.source` says which register a slot was read from and `SaveRegs.slot`
which slot a register is restored from; `slot_source` is the whole round trip.

Each loop touches `c->csr` at slot indices below `nb_reg + hmac_nb_reg`, the length
`stm32_hash_alloc` gives the array, so with the model's checked accesses neither function,
nor the copy of the array in `stm32_hash_deep_copy`, runs into undefined behaviour.
-/
import Stm32Hash.Context

namespace Stm32Hash

open Drv

variable {V : Type}

/-! ### Slots and registers -/

namespace SaveRegs

/-- The context register slot `i` of `c->csr` is saved from. -/
def source (r : SaveRegs) (i : Nat) : Nat :=
  if i < r.nbReg then i + r.first else i - r.nbReg + r.hmacFirst

/-- The slot `restore_context` leaves in context register `j`, if it writes `j` at all: the
HMAC loop runs last, so its slots win where the ranges overlap. -/
def slot (r : SaveRegs) (j : Nat) : Option Nat :=
  if r.hmacFirst ≤ j ∧ j < r.hmacFirst + r.hmacNbReg then some (j - r.hmacFirst + r.nbReg)
  else if r.first ≤ j ∧ j < r.first + r.nbReg then some (j - r.first) else none

theorem slot_lt {r : SaveRegs} {j i : Nat} (h : r.slot j = some i) : i < r.size := by
  unfold slot at h; unfold size
  split at h
  · cases h; omega
  · split at h
    · cases h; omega
    · cases h

/-- Restoring a slot writes the register it was saved from. -/
theorem slot_source {r : SaveRegs} {j i : Nat} (h : r.slot j = some i) : r.source i = j := by
  unfold slot at h; unfold source
  split at h
  · cases h; rw [if_neg (by omega)]; omega
  · split at h
    · cases h; rw [if_pos (by omega)]; omega
    · cases h

theorem slot_isSome {r : SaveRegs} {j : Nat} : (r.slot j).isSome ↔ r.Saves j := by
  unfold slot Saves
  split
  · simp_all
  · split <;> simp_all

end SaveRegs

/-- The words `save_context` leaves in `c->csr`. -/
def Regs.snapshot (h : Regs V) (r : SaveRegs) : List V :=
  (List.range r.size).map fun i => h.csr (r.source i)

/-- The registers after `restore_context` from the words `csr`. -/
def Regs.restored (E : Engine V) (c : Ctx V) (csr : List V) (h : Regs V) : Regs V :=
  let h := ((h.writeImr c.imr).writeStr E c.str).writeCr E (c.cr ||| hashCrInit)
  { h with csr := fun j => match c.saveRegs.slot j with
                            | some i => csr.getD i (h.csr j)
                            | none => h.csr j }

@[simp] theorem Regs.restored_imr (E : Engine V) (c : Ctx V) (csr : List V) (h : Regs V) :
    (h.restored E c csr).imr = c.imr := by simp [Regs.restored]
@[simp] theorem Regs.restored_str (E : Engine V) (c : Ctx V) (csr : List V) (h : Regs V) :
    (h.restored E c csr).str = c.str &&& ~~~hashStrDcal := by simp [Regs.restored]
@[simp] theorem Regs.restored_cr (E : Engine V) (c : Ctx V) (csr : List V) (h : Regs V) :
    (h.restored E c csr).cr = c.cr ||| hashCrInit := by simp [Regs.restored]

@[simp] theorem Regs.length_snapshot (h : Regs V) (r : SaveRegs) :
    (h.snapshot r).length = r.size := by
  simp [Regs.snapshot]

/-- Context register 0 is saved in every layout, into slot 0. -/
theorem saveRegs_slot_zero (c : Ctx V) : c.saveRegs.slot 0 = some 0 := by
  unfold Ctx.saveRegs
  cases c.saveMode <;> cases c.mode <;> rfl

theorem saveRegs_source_zero (c : Ctx V) : c.saveRegs.source 0 = 0 :=
  SaveRegs.slot_source (saveRegs_slot_zero c)

/-! ### The two loops -/

theorem storeRange_spec (dst : List V) (off : Nat) (src : Nat → V) :
    ∀ n, off + n ≤ dst.length → ∃ d, storeRange dst off src n = some d ∧
      d.length = dst.length ∧
      ∀ i, d[i]? = if off ≤ i ∧ i < off + n then some (src (i - off)) else dst[i]? := by
  intro n
  induction n with
  | zero => intro _; exact ⟨dst, rfl, rfl, fun i => by rw [if_neg (by omega)]⟩
  | succ n ih =>
    intro hn
    obtain ⟨d, hd, hlen, hget⟩ := ih (by omega)
    refine ⟨d.set (n + off) (src n), ?_, by rw [List.length_set, hlen], fun i => ?_⟩
    · simp [storeRange, hd, storeAt, hlen]; omega
    · rw [List.getElem?_set, hget, hlen]
      by_cases hi : n + off = i
      · subst hi; rw [if_pos rfl, if_pos (by omega), if_pos (by omega)]; congr; omega
      · rw [if_neg hi]
        by_cases hr : off ≤ i ∧ i < off + n
        · rw [if_pos hr, if_pos (by omega)]
        · rw [if_neg hr, if_neg (by omega)]

theorem restoreRange_spec (csr : List V) (first off : Nat) (h : Regs V) :
    ∀ n, off + n ≤ csr.length → ∃ h', restoreRange csr first off h n = some h' ∧
      h'.imr = h.imr ∧ h'.str = h.str ∧ h'.cr = h.cr ∧
      ∀ j, h'.csr j = if first ≤ j ∧ j < first + n then csr.getD (j - first + off) (h.csr j)
        else h.csr j := by
  intro n
  induction n with
  | zero => intro _; exact ⟨h, rfl, rfl, rfl, rfl, fun j => by rw [if_neg (by omega)]⟩
  | succ n ih =>
    intro hn
    obtain ⟨h', hh', himr, hstr, hcr, hcsr⟩ := ih (by omega)
    obtain ⟨v, hv⟩ : ∃ v, csr[n + off]? = some v := ⟨_, List.getElem?_eq_getElem (by omega)⟩
    refine ⟨h'.writeCsr (n + first) v, by simp [restoreRange, hh', hv], himr, hstr, hcr,
      fun j => ?_⟩
    rw [Regs.writeCsr_csr, hcsr]
    by_cases hj : j = n + first
    · subst hj
      rw [if_pos rfl, if_pos (by omega), List.getD_eq_getElem?_getD,
        show n + first - first + off = n + off by omega, hv]
      rfl
    · rw [if_neg hj]
      by_cases hr : first ≤ j ∧ j < first + n
      · rw [if_pos hr, if_pos (by omega)]
      · rw [if_neg hr, if_neg (by omega)]

/-! ### `save_context` and `restore_context` as functions -/

/-- The two loops of `save_context` fill an array of the allocated length with the snapshot. -/
theorem storeRange_snapshot (h : Regs V) (r : SaveRegs) {csr : List V}
    (hl : csr.length = r.size) :
    (storeRange csr 0 (fun i => h.csr (i + r.first)) r.nbReg).bind
      (fun d => storeRange d r.nbReg (fun i => h.csr (i + r.hmacFirst)) r.hmacNbReg) =
      some (h.snapshot r) := by
  have hsize : csr.length = r.nbReg + r.hmacNbReg := hl
  obtain ⟨d₁, hd₁, hl₁, hget₁⟩ := storeRange_spec csr 0 (fun i => h.csr (i + r.first)) r.nbReg
    (by omega)
  obtain ⟨d₂, hd₂, hl₂, hget₂⟩ := storeRange_spec d₁ r.nbReg
    (fun i => h.csr (i + r.hmacFirst)) r.hmacNbReg (by omega)
  rw [hd₁, Option.some_bind, hd₂]
  congr 1
  apply List.ext_getElem?
  intro i
  rw [hget₂, hget₁]
  simp only [Regs.snapshot, List.getElem?_map, SaveRegs.source, SaveRegs.size]
  by_cases h₁ : i < r.nbReg
  · rw [if_neg (by omega), if_pos (by omega), List.getElem?_range (by omega)]; simp [h₁]
  · by_cases h₂ : i < r.nbReg + r.hmacNbReg
    · rw [if_pos (by omega), List.getElem?_range h₂]; simp [h₁]
    · rw [if_neg (by omega), if_neg (by omega), List.getElem?_eq_none (by omega),
        List.getElem?_eq_none (by simp; omega)]
      rfl

/-- `save_context` on a session whose `csr` array has the allocated length: it fails when the
engine is busy or its FIFO not empty, and otherwise records `IMR`, `STR`, `CR` and the
snapshot of the context registers. -/
theorem saveContext_eq (E : Engine V) (c : Ctx V) (h : Regs V) {csr : List V}
    (hc : c.csr = some csr) (hl : csr.length = c.saveRegs.size) :
    saveContext E (c, h) =
      if E.sr h &&& hashSrBusy = 0 then
        if E.sr h &&& hashSrDinis = 0 then some (.error .errorBadState, c, h)
        else some (.ok (), { c with imr := h.imr, str := h.str, cr := h.cr,
                                    csr := some (h.snapshot c.saveRegs) }, h)
      else some (.error .errorBusy, c, h) := by
  have hs := storeRange_snapshot h c.saveRegs hl
  by_cases hb : E.sr h &&& hashSrBusy = 0
  · by_cases hd : E.sr h &&& hashSrDinis = 0
    · simp only [saveContext, bind_apply, waitEndBusy_apply, readSr_apply, if_pos hb, if_pos hd,
        exit_apply]
    · simp only [saveContext, bind_apply, waitEndBusy_apply, readSr_apply, if_pos hb, if_neg hd,
        pure_apply, getRegs_apply, modifyCtx_apply, getCtx_apply, hc, lift_apply]
      simp only [Ctx.saveRegs] at hs ⊢
      cases hd₁ : storeRange csr 0 (fun i => h.csr (i + (getSaveRegisters c.saveMode c.mode).first))
          (getSaveRegisters c.saveMode c.mode).nbReg with
      | none => simp [hd₁] at hs
      | some d₁ => simp_all
  · simp only [saveContext, bind_apply, waitEndBusy_apply, if_neg hb]

/-- `restore_context` on a session whose `csr` array holds at least the saved words. -/
theorem restoreContext_eq (E : Engine V) (c : Ctx V) (h : Regs V) {csr : List V}
    (hc : c.csr = some csr) (hl : c.saveRegs.size ≤ csr.length) :
    restoreContext E (c, h) = some (.ok (), c, h.restored E c csr) := by
  have hsize : c.saveRegs.nbReg + c.saveRegs.hmacNbReg ≤ csr.length := hl
  let h₀ := ((h.writeImr c.imr).writeStr E c.str).writeCr E (c.cr ||| hashCrInit)
  obtain ⟨h₁, hh₁, i₁, s₁, c₁, hcsr₁⟩ :=
    restoreRange_spec csr c.saveRegs.first 0 h₀ c.saveRegs.nbReg (by omega)
  obtain ⟨h₂, hh₂, i₂, s₂, c₂, hcsr₂⟩ :=
    restoreRange_spec csr c.saveRegs.hmacFirst c.saveRegs.nbReg h₁ c.saveRegs.hmacNbReg (by omega)
  have hres : h₂ = h.restored E c csr := by
    refine Regs.ext' (by rw [i₂, i₁]; rfl) (by rw [s₂, s₁]; rfl) (by rw [c₂, c₁]; rfl)
      fun j => ?_
    rw [hcsr₂, hcsr₁]
    simp only [Regs.restored, SaveRegs.slot]
    split
    · have : j - c.saveRegs.hmacFirst + c.saveRegs.nbReg < csr.length := by omega
      simp [List.getD_eq_getElem?_getD, List.getElem?_eq_getElem this]
    · split <;> simp_all
  simp only [restoreContext, bind_apply, getCtx_apply, io_apply, hc, getRegs_apply, lift_apply]
  simp [h₀] at hh₁
  simp [hh₁, hh₂, hres]

/-- `save_context` when the engine is idle and its FIFO empty. -/
theorem saveContext_ok (E : Engine V) {c : Ctx V} {csr : List V} (hc : c.csr = some csr)
    (hl : csr.length = c.saveRegs.size) {h : Regs V} (hb : E.sr h &&& hashSrBusy = 0)
    (hd : E.sr h &&& hashSrDinis ≠ 0) :
    saveContext E (c, h) = some (.ok (), { c with imr := h.imr, str := h.str, cr := h.cr,
                                                  csr := some (h.snapshot c.saveRegs) }, h) := by
  rw [saveContext_eq E c h hc hl, if_pos hb, if_neg hd]

theorem saveRegs_size_pos (c : Ctx V) : 0 < c.saveRegs.size := by
  unfold Ctx.saveRegs
  cases c.saveMode <;> cases c.mode <;> decide

/-- Slot 0 of a snapshot holds context register 0. -/
theorem head?_snapshot (h : Regs V) (c : Ctx V) :
    (h.snapshot c.saveRegs).head? = some (h.csr 0) := by
  obtain ⟨n, hn⟩ := Nat.exists_eq_succ_of_ne_zero (saveRegs_size_pos c).ne'
  simp [Regs.snapshot, hn, List.range_succ_eq_map, saveRegs_source_zero]

/-- `restore_context` puts slot 0 back into context register 0. -/
theorem restored_csr_zero (E : Engine V) (c : Ctx V) {csr : List V} {v : V}
    (hv : csr.head? = some v) (h : Regs V) : (h.restored E c csr).csr 0 = v := by
  simp [Regs.restored, saveRegs_slot_zero, List.getD_eq_getElem?_getD, ← List.head?_eq_getElem?,
    hv]

/-! ### The round trip -/

/-- The slot `restore_context` writes a register from holds that register. -/
theorem snapshot_slot (h : Regs V) {r : SaveRegs} {j i : Nat} (hi : r.slot j = some i) :
    (h.snapshot r)[i]? = some (h.csr j) := by
  rw [Regs.snapshot, List.getElem?_map, List.getElem?_range (SaveRegs.slot_lt hi)]
  simp [SaveRegs.slot_source hi]

/-- What `restore_context` leaves in a register it writes: the word of its slot. -/
theorem restored_csr_of_slot (E : Engine V) (c : Ctx V) {csr : List V} {j i : Nat}
    (hi : c.saveRegs.slot j = some i) (hl : i < csr.length) (h : Regs V) :
    (h.restored E c csr).csr j = csr[i] := by
  simp [Regs.restored, hi, List.getD_eq_getElem?_getD, List.getElem?_eq_getElem hl]

/-- A saved register comes back from the slot it was saved into. -/
theorem restored_snapshot (E : Engine V) (c : Ctx V) (h h' : Regs V) {j : Nat}
    (hj : c.saveRegs.Saves j) : (h'.restored E c (h.snapshot c.saveRegs)).csr j = h.csr j := by
  obtain ⟨i, hi⟩ := Option.isSome_iff_exists.mp (SaveRegs.slot_isSome.mpr hj)
  simp only [Regs.restored, hi]
  rw [List.getD_eq_getElem?_getD, Regs.snapshot, List.getElem?_map,
    List.getElem?_range (SaveRegs.slot_lt hi)]
  simp [SaveRegs.slot_source hi]

theorem saveContext_isSome (E : Engine V) {c : Ctx V} (hc : c.Allocated) (h : Regs V) :
    saveContext E (c, h) ≠ none := by
  obtain ⟨csr, hcsr, hl⟩ := hc.csr
  rw [saveContext_eq E c h hcsr hl]
  split_ifs <;> simp

theorem restoreContext_isSome (E : Engine V) {c : Ctx V} (hc : c.Allocated) (h : Regs V) :
    restoreContext E (c, h) ≠ none := by
  obtain ⟨csr, hcsr, hl⟩ := hc.csr
  simp [restoreContext_eq E c h hcsr hl.ge]

/-- `stm32_hash_deep_copy` between two sessions allocated for one mode and algorithm, when
the source's pending bytes fit its buffer: the copy is the source, with the destination's own
pending buffer, whose first `remain.len` bytes are now the source's. -/
theorem stm32HashDeepCopy_eq {d c : Ctx V} (hd : d.Allocated) (hc : c.Allocated)
    (hmode : d.mode = c.mode) (halgo : d.algo = c.algo) (hlen : c.remainLen ≤ c.blockSize + 4) :
    ∃ cb db, c.remainBuf = some cb ∧ d.remainBuf = some db ∧ stm32HashDeepCopy d c =
      some (.success,
        { c with remainBuf := some (cb.take c.remainLen ++ db.drop c.remainLen) }) := by
  obtain ⟨db, hdb, hdbl⟩ := hd.remainBuf
  obtain ⟨cb, hcb, hcbl⟩ := hc.remainBuf
  obtain ⟨dc, hdc, hdcl⟩ := hd.csr
  obtain ⟨cc, hcc, hccl⟩ := hc.csr
  have hB : d.blockSize = c.blockSize := by rw [hd.blockSize, hc.blockSize, halgo]
  have hS : d.saveRegs = c.saveRegs := by
    simp only [Ctx.saveRegs, hd.saveMode, hc.saveMode, halgo, hmode]
  refine ⟨cb, db, hcb, hdb, ?_⟩
  simp only [Ctx.saveRegs] at hS hccl hdcl
  simp only [stm32HashDeepCopy, hmode, halgo, ne_eq, not_true_eq_false, or_self, if_false,
    hcb, hdb, hcc, hdc, Option.bind_eq_bind, Option.some_bind, Ctx.saveRegs]
  rw [readPrefix_of_le (by omega), Option.some_bind, writeAt_of_le (by simp; omega),
    Option.some_bind, readPrefix_of_le (by omega), Option.some_bind,
    writeAt_of_le (by rw [hS] at hdcl; simp; omega)]
  rw [hS] at hdcl
  simp [hS, hcc, ← hccl, hdcl, Nat.min_eq_left (show c.remainLen ≤ cb.length by omega)]

/-- In particular the copy stays inside both `csr` arrays, and inside both pending buffers. -/
theorem stm32HashDeepCopy_isSome {d c : Ctx V} (hd : d.Allocated) (hc : c.Allocated)
    (hmode : d.mode = c.mode) (halgo : d.algo = c.algo) (hlen : c.remainLen ≤ c.blockSize + 4) :
    stm32HashDeepCopy d c ≠ none := by
  obtain ⟨_, _, _, _, he⟩ := stm32HashDeepCopy_eq hd hc hmode halgo hlen
  simp [he]

/-- **Saving then restoring a context brings back `IMR`, `STR`, `CR` with `INIT` set, and
every context register the session saves, for every layout, whatever the engine held in
between; and neither call, nor `stm32_hash_deep_copy`, reaches past the `csr` array
`stm32_hash_alloc` allocated.** -/
theorem save_restore_roundtrip (E : Engine V) (c : Ctx V) (hc : c.Allocated) :
    (∀ h c' h₁, saveContext E (c, h) = some (.ok (), c', h₁) → ∀ h', ∃ h₂,
        restoreContext E (c', h') = some (.ok (), c', h₂) ∧
        h₂.imr = h.imr ∧ h₂.str = h.str ∧ h₂.cr = h.cr ||| hashCrInit ∧
        ∀ j, c.saveRegs.Saves j → h₂.csr j = h.csr j) ∧
    (∀ h, saveContext E (c, h) ≠ none ∧ restoreContext E (c, h) ≠ none) ∧
    (∀ d : Ctx V, d.Allocated → d.mode = c.mode → d.algo = c.algo →
        c.remainLen ≤ c.blockSize + 4 → stm32HashDeepCopy d c ≠ none) := by
  refine ⟨fun h c' h₁ hsave h' => ?_, fun h => ⟨saveContext_isSome E hc h,
    restoreContext_isSome E hc h⟩, fun d hd hmode halgo hlen =>
    stm32HashDeepCopy_isSome hd hc hmode halgo hlen⟩
  obtain ⟨csr, hcsr, hl⟩ := hc.csr
  rw [saveContext_eq E c h hcsr hl] at hsave
  split_ifs at hsave
  · simp at hsave
  · cases hsave
    exact ⟨_, restoreContext_eq E _ h' rfl (by simp; rfl), by simp, by simp, by simp,
      fun j hj => restored_snapshot E _ h h' hj⟩
  · simp at hsave

/-- An engine that only stores what it is written and always shows an empty FIFO. -/
def quietEngine : Engine UInt32 :=
  ⟨fun h _ => h.csr, fun h => h.csr, fun h => h.csr, fun _ => hashSrDinis, fun _ _ => 0⟩

/-- The SHA3-256 HMAC session of an STM32MP13 engine, whose two register ranges overlap. -/
def mp13Sha3Hmac : Ctx UInt32 := (stm32HashAlloc Ctx.calloc (some mp13Caps) .hmac .sha3_256).2

/-- Context register 40 is one the two loops of `restore_context` both write for this
session: the first from slot 40, the HMAC loop last, from slot 96. -/
theorem mp13Sha3Hmac_roundtrip : mp13Sha3Hmac.Allocated ∧
    (∀ h : Regs UInt32, saveContext quietEngine (mp13Sha3Hmac, h) ≠ none) ∧
    mp13Sha3Hmac.saveRegs.slot 40 = some 96 ∧
    ∀ h h' : Regs UInt32, ∃ c' h₂,
      saveContext quietEngine (mp13Sha3Hmac, h) = some (.ok (), c', h) ∧
      restoreContext quietEngine (c', h') = some (.ok (), c', h₂) ∧
      h₂.imr = h.imr ∧ h₂.str = h.str ∧ h₂.cr = h.cr ||| hashCrInit ∧ h₂.csr 40 = h.csr 40 := by
  have hc : mp13Sha3Hmac.Allocated := (stm32HashAlloc_allocated (show stm32HashAlloc Ctx.calloc
    (some mp13Caps) .hmac .sha3_256 = (.success, mp13Sha3Hmac) from rfl)).1
  have hrt := save_restore_roundtrip quietEngine mp13Sha3Hmac hc
  refine ⟨hc, fun h => (hrt.2.1 h).1, by decide, fun h h' => ?_⟩
  obtain ⟨csr, hcsr, hl⟩ := hc.csr
  have hsave := saveContext_ok quietEngine hcsr hl
    (show quietEngine.sr h &&& hashSrBusy = 0 from (by decide : hashSrDinis &&& hashSrBusy = 0))
    (show quietEngine.sr h &&& hashSrDinis ≠ 0 from (by decide : hashSrDinis &&& hashSrDinis ≠ 0))
  obtain ⟨h₂, hr, himr, hstr, hcr, hcsr₂⟩ := hrt.1 h _ h hsave h'
  exact ⟨_, h₂, hsave, hr, himr, hstr, hcr, hcsr₂ 40 (SaveRegs.slot_isSome.mp (by decide))⟩

end Stm32Hash
