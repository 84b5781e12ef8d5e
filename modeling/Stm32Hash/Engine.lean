/-
The HASH engine as the driver sees it.

The driver touches the engine only through `io_read32` and `io_write32` and their
read-modify-write forms.  The registers it saves and restores hold what was written to them:
`HASH_IMR`, `HASH_STR`, `HASH_CR` and the context-swap registers `HASH_CSR(x)`.  What the
engine does on top of storing a value is left open, as an `Engine`: absorbing a word written
to `HASH_DIN`, reacting to `INIT` in `HASH_CR` and to `DCAL` in `HASH_STR`, and what it
shows in `HASH_SR` and `HASH_HR(x)`.  The engine's working state lives in the context-swap
registers; that is what makes saving and restoring them a context switch.

The driver never looks inside a context register, it only copies them, so their contents are
left abstract as `V`.  On the hardware `V` is a 32-bit word; the FIFO model of
`Stm32Hash/FifoModel.lean` stores its whole working state in register 0.
-/
import Stm32Hash.Basic

namespace Stm32Hash

variable {V : Type}

/-- `DCAL` is a trigger: it reads back as 0. -/
theorem and_not_dcal (v : BitVec 32) : v &&& ~~~hashStrDcal &&& hashStrDcal = 0 := by
  ext i; simp

/-- The engine's registers that hold what software writes to them.  `HASH_STR` never shows
the `DCAL` trigger, so a value read from it can be written back without starting a digest. -/
structure Regs (V : Type) where
  imr : BitVec 32
  str : BitVec 32
  cr : BitVec 32
  csr : Nat → V
  str_dcal : str &&& hashStrDcal = 0

/-- What the engine does beyond storing a value: each effect yields the new context
registers, the reads yield the value shown. -/
structure Engine (V : Type) where
  /-- A word written to `HASH_DIN`. -/
  din : Regs V → Word → Nat → V
  /-- `DCAL` written to `HASH_STR`: the digest calculation starts. -/
  dcal : Regs V → Nat → V
  /-- `INIT` written to `HASH_CR`: the engine starts a new digest. -/
  init : Regs V → Nat → V
  /-- `HASH_SR`. -/
  sr : Regs V → BitVec 32
  /-- `HASH_HR(x)`. -/
  hr : Regs V → Nat → BitVec 32

namespace Regs

theorem ext' {h₁ h₂ : Regs V} (himr : h₁.imr = h₂.imr) (hstr : h₁.str = h₂.str)
    (hcr : h₁.cr = h₂.cr) (hcsr : ∀ j, h₁.csr j = h₂.csr j) : h₁ = h₂ := by
  cases h₁; cases h₂; cases himr; cases hstr; cases hcr; cases funext hcsr; rfl

/-- Writing back the value read from `HASH_STR` stores it unchanged. -/
@[simp] theorem str_and_not_dcal (h : Regs V) : h.str &&& ~~~hashStrDcal = h.str := by
  ext i
  have := congrArg (BitVec.getLsbD · i) h.str_dcal
  simp only [BitVec.getLsbD_and, BitVec.getLsbD_not, BitVec.getLsbD_zero] at this ⊢
  cases hx : h.str.getLsbD i <;> simp_all

/-- `io_write32(base + _HASH_IMR, v)`. -/
def writeImr (h : Regs V) (v : BitVec 32) : Regs V := { h with imr := v }

/-- `io_write32(base + _HASH_CSR(i), v)`. -/
def writeCsr (h : Regs V) (i : Nat) (v : V) : Regs V :=
  { h with csr := fun j => if j = i then v else h.csr j }

/-- `io_write32(base + _HASH_CR, v)`. -/
def writeCr (E : Engine V) (h : Regs V) (v : BitVec 32) : Regs V :=
  let h := { h with cr := v }
  if v &&& hashCrInit = 0 then h else { h with csr := E.init h }

/-- `io_write32(base + _HASH_STR, v)`. -/
def writeStr (E : Engine V) (h : Regs V) (v : BitVec 32) : Regs V :=
  let h := { h with str := v &&& ~~~hashStrDcal, str_dcal := and_not_dcal v }
  if v &&& hashStrDcal = 0 then h else { h with csr := E.dcal h }

/-- `io_write32(base + _HASH_DIN, w)`. -/
def writeDin (E : Engine V) (h : Regs V) (w : Word) : Regs V := { h with csr := E.din h w }

/-- `io_clrsetbits32(base + _HASH_STR, mask, v)`. -/
def clrsetbitsStr (E : Engine V) (h : Regs V) (mask v : BitVec 32) : Regs V :=
  h.writeStr E ((h.str &&& ~~~mask) ||| v)

/-- `io_setbits32(base + _HASH_STR, v)`. -/
def setbitsStr (E : Engine V) (h : Regs V) (v : BitVec 32) : Regs V :=
  h.writeStr E (h.str ||| v)

/-- `io_clrbits32(base + _HASH_STR, v)`. -/
def clrbitsStr (E : Engine V) (h : Regs V) (v : BitVec 32) : Regs V :=
  h.writeStr E (h.str &&& ~~~v)

@[simp] theorem writeImr_imr (h : Regs V) (v) : (h.writeImr v).imr = v := rfl
@[simp] theorem writeImr_str (h : Regs V) (v) : (h.writeImr v).str = h.str := rfl
@[simp] theorem writeImr_cr (h : Regs V) (v) : (h.writeImr v).cr = h.cr := rfl
@[simp] theorem writeImr_csr (h : Regs V) (v) : (h.writeImr v).csr = h.csr := rfl

@[simp] theorem writeCsr_imr (h : Regs V) (i v) : (h.writeCsr i v).imr = h.imr := rfl
@[simp] theorem writeCsr_str (h : Regs V) (i v) : (h.writeCsr i v).str = h.str := rfl
@[simp] theorem writeCsr_cr (h : Regs V) (i v) : (h.writeCsr i v).cr = h.cr := rfl
@[simp] theorem writeCsr_csr (h : Regs V) (i v j) :
    (h.writeCsr i v).csr j = if j = i then v else h.csr j := rfl

/-- The effects of the engine touch only the context registers. -/
@[simp] theorem writeCr_imr (E : Engine V) (h : Regs V) (v) : (h.writeCr E v).imr = h.imr := by
  unfold writeCr; split <;> rfl
@[simp] theorem writeCr_str (E : Engine V) (h : Regs V) (v) : (h.writeCr E v).str = h.str := by
  unfold writeCr; split <;> rfl
@[simp] theorem writeCr_cr (E : Engine V) (h : Regs V) (v) : (h.writeCr E v).cr = v := by
  unfold writeCr; split <;> rfl
@[simp] theorem writeStr_imr (E : Engine V) (h : Regs V) (v) : (h.writeStr E v).imr = h.imr := by
  unfold writeStr; split <;> rfl
@[simp] theorem writeStr_str (E : Engine V) (h : Regs V) (v) :
    (h.writeStr E v).str = v &&& ~~~hashStrDcal := by
  unfold writeStr; split <;> rfl
@[simp] theorem writeStr_cr (E : Engine V) (h : Regs V) (v) : (h.writeStr E v).cr = h.cr := by
  unfold writeStr; split <;> rfl
@[simp] theorem clrsetbitsStr_cr (E : Engine V) (h : Regs V) (mask v) :
    (h.clrsetbitsStr E mask v).cr = h.cr := writeStr_cr E h _
@[simp] theorem setbitsStr_cr (E : Engine V) (h : Regs V) (v) : (h.setbitsStr E v).cr = h.cr :=
  writeStr_cr E h _
@[simp] theorem clrbitsStr_cr (E : Engine V) (h : Regs V) (v) : (h.clrbitsStr E v).cr = h.cr :=
  writeStr_cr E h _
@[simp] theorem writeDin_imr (E : Engine V) (h : Regs V) (w) : (h.writeDin E w).imr = h.imr := rfl
@[simp] theorem writeDin_str (E : Engine V) (h : Regs V) (w) : (h.writeDin E w).str = h.str := rfl
@[simp] theorem writeDin_cr (E : Engine V) (h : Regs V) (w) : (h.writeDin E w).cr = h.cr := rfl
@[simp] theorem writeDin_csr (E : Engine V) (h : Regs V) (w) :
    (h.writeDin E w).csr = E.din h w := rfl

end Regs

/-! ### The fields of `HASH_STR`

`NBLW` (bits 0 to 4) and `DCAL` (bit 8) are separate fields.  The driver writes `NBLW` with a
read-modify-write that keeps `DCAL` clear, so only `io_setbits32` of `DCAL` starts a digest,
and it does so with the `NBLW` last written.
-/

theorem dcal_and_nblwMask : hashStrDcal &&& hashStrNblwMask = 0 := by decide

/-- The `NBLW` values the driver writes, `8 * (len % 4)`, fit the field. -/
theorem nblw_fits {n : Nat} (hn : n < 4) :
    BitVec.ofNat 32 (8 * n) &&& ~~~hashStrNblwMask = 0 ∧
      BitVec.ofNat 32 (8 * n) &&& hashStrDcal = 0 := by
  rcases (by omega : n = 0 ∨ n = 1 ∨ n = 2 ∨ n = 3) with rfl | rfl | rfl | rfl <;> decide

private theorem clrset_and_dcal (s x : BitVec 32) (hs : s &&& hashStrDcal = 0)
    (hx : x &&& hashStrDcal = 0) : ((s &&& ~~~hashStrNblwMask) ||| x) &&& hashStrDcal = 0 := by
  ext i
  have h1 := congrArg (BitVec.getLsbD · i) hs
  have h2 := congrArg (BitVec.getLsbD · i) hx
  simp only [BitVec.getLsbD_and, BitVec.getLsbD_or, BitVec.getLsbD_not,
    BitVec.getLsbD_zero] at h1 h2 ⊢
  cases e1 : s.getLsbD i <;> cases e2 : x.getLsbD i <;> cases e3 : hashStrDcal.getLsbD i <;>
    simp_all

private theorem clrset_nblw (s x : BitVec 32) (hx : x &&& ~~~hashStrNblwMask = 0) :
    ((s &&& ~~~hashStrNblwMask) ||| x) &&& ~~~hashStrDcal &&& hashStrNblwMask = x := by
  ext i
  have h1 := congrArg (BitVec.getLsbD · i) hx
  have h2 := congrArg (BitVec.getLsbD · i) dcal_and_nblwMask
  simp only [BitVec.getLsbD_and, BitVec.getLsbD_or, BitVec.getLsbD_not,
    BitVec.getLsbD_zero] at h1 h2 ⊢
  cases e1 : s.getLsbD i <;> cases e2 : x.getLsbD i <;>
    cases e3 : hashStrNblwMask.getLsbD i <;> cases e4 : hashStrDcal.getLsbD i <;> simp_all

private theorem or_dcal_and_not (s : BitVec 32) (hs : s &&& hashStrDcal = 0) :
    (s ||| hashStrDcal) &&& ~~~hashStrDcal = s := by
  ext i
  have h1 := congrArg (BitVec.getLsbD · i) hs
  simp only [BitVec.getLsbD_and, BitVec.getLsbD_or, BitVec.getLsbD_not,
    BitVec.getLsbD_zero] at h1 ⊢
  cases e1 : s.getLsbD i <;> cases e2 : hashStrDcal.getLsbD i <;> simp_all

namespace Regs

/-- A read-modify-write of `NBLW` stores and starts nothing. -/
@[simp] theorem clrsetbitsStr_csr (E : Engine V) (h : Regs V) {x : BitVec 32}
    (hx : x &&& hashStrDcal = 0) : (h.clrsetbitsStr E hashStrNblwMask x).csr = h.csr := by
  unfold clrsetbitsStr writeStr
  rw [if_pos (clrset_and_dcal _ _ h.str_dcal hx)]

/-- After it `NBLW` holds the value written. -/
theorem clrsetbitsStr_nblw (E : Engine V) (h : Regs V) {x : BitVec 32}
    (hx : x &&& ~~~hashStrNblwMask = 0) :
    (h.clrsetbitsStr E hashStrNblwMask x).str &&& hashStrNblwMask = x := by
  simp only [clrsetbitsStr, writeStr_str, clrset_nblw _ _ hx]

theorem clrbitsStr_eq (E : Engine V) (h : Regs V) :
    h.clrbitsStr E hashStrNblwMask = h.clrsetbitsStr E hashStrNblwMask 0 := by
  simp [clrbitsStr, clrsetbitsStr]

/-- `io_setbits32` of `DCAL` leaves `HASH_STR` as it was and starts the digest from the
registers as they are. -/
theorem setbitsStr_dcal (E : Engine V) (h : Regs V) :
    h.setbitsStr E hashStrDcal = { h with csr := E.dcal h } := by
  have hd : (h.str ||| hashStrDcal) &&& hashStrDcal ≠ 0 := by
    have : (h.str ||| hashStrDcal) &&& hashStrDcal = hashStrDcal := by
      ext i; simp; exact fun h => Or.inr h
    rw [this]; decide
  unfold setbitsStr writeStr
  rw [if_neg hd]
  simp only [or_dcal_and_not _ h.str_dcal]

end Regs

end Stm32Hash
