/-
Sessions sharing the device: what one session's calls return when the calls of other
sessions run in between.

Every session has its own context; the engine is shared, and calls run one whole call at a
time (`runSchedule`).  On an engine whose behaviour `HASH_CR` and the context registers in use
determine (`Engine.Determined`), where every session saves the registers the engine uses under
the `HASH_CR` its calls write (`Ctx.Covers`), a call depends on the engine only through what
it puts back itself (`Stm32Hash/Determined.lean`).  So a session's calls return what they
return when the session runs alone on the device (`session_isolation`), up to the first call
of any session that runs into undefined behaviour, after which nothing runs.  The FIFO model
is of the class, with one block size for every session (`fifoEngine_determined`) or with the
block size `HASH_CR` selects (`crFifoEngine`), which serves sessions of several algorithms at
once.

Isolation does not hold for every engine whose behaviour `HASH_STR` also decides.
`stm32_hash_init` does not restore a context: in hash mode it writes `HASH_CR`, leaves
`HASH_STR` as the last call of any session left it, and then `save_context` reads `HASH_SR`
and saves that `HASH_STR` into the new session.  An engine whose `DINIS` reads `NBLW`
(`nblwEngine`) then fails a session's first call after another session's `stm32_hash_final`
wrote `NBLW`, though the same call succeeds when the session runs alone
(`init_after_other_final_fails`).
-/
import Stm32Hash.Determined
import Stm32Hash.Streaming

namespace Stm32Hash

variable {V : Type} {B : Nat} {H : BitVec 32 → List (List UInt8) → Nat → BitVec 32}

/-! ### Schedules -/

/-- The device: the sessions, by number, and the engine they share. -/
structure Device (V : Type) where
  sessions : Nat → Ctx V
  regs : Regs V

/-- A schedule's calls, run one whole call at a time on the device, each on its session: what
each call returns, with its session's number, until one runs into undefined behaviour. -/
def runSchedule (E : Engine V) :
    List (Nat × Call) → Device V → List (Nat × Option (TeeResult × List UInt8))
  | [], _ => []
  | (i, k) :: sched, D =>
    match k.run E (D.sessions i, D.regs) with
    | none => [(i, none)]
    | some (r, c, g) =>
      (i, some (Call.outcome r)) :: runSchedule E sched ⟨Function.update D.sessions i c, g⟩

/-- What session `i`'s calls returned. -/
def outcomesOf (i : Nat) (os : List (Nat × Option (TeeResult × List UInt8))) :
    List (Option (TeeResult × List UInt8)) :=
  os.filterMap fun o => if o.1 = i then some o.2 else none

/-- Session `i`'s calls in a schedule, in order. -/
def callsOf (i : Nat) (sched : List (Nat × Call)) : List Call :=
  sched.filterMap fun p => if p.1 = i then some p.2 else none

@[simp] theorem outcomesOf_nil (i : Nat) : outcomesOf i [] = [] := rfl

theorem outcomesOf_cons (i j : Nat) (o : Option (TeeResult × List UInt8))
    (os : List (Nat × Option (TeeResult × List UInt8))) :
    outcomesOf i ((j, o) :: os) = if j = i then o :: outcomesOf i os else outcomesOf i os := by
  unfold outcomesOf
  split <;> simp [*]

/-- Every outcome of session `i` is one the schedule's run returned for it. -/
theorem mem_outcomesOf {i : Nat} {x : Option (TeeResult × List UInt8)}
    {os : List (Nat × Option (TeeResult × List UInt8))} (hx : x ∈ outcomesOf i os) :
    (i, x) ∈ os := by
  obtain ⟨⟨j, y⟩, ho, he⟩ := List.mem_filterMap.mp hx
  split_ifs at he with hj
  cases he
  rwa [← hj]

theorem mem_outcomesOf_of_mem {i : Nat} {x : Option (TeeResult × List UInt8)}
    {os : List (Nat × Option (TeeResult × List UInt8))} (hx : (i, x) ∈ os) :
    x ∈ outcomesOf i os :=
  List.mem_filterMap.mpr ⟨(i, x), hx, if_pos rfl⟩

theorem callsOf_cons (i j : Nat) (k : Call) (sched : List (Nat × Call)) :
    callsOf i ((j, k) :: sched) = if j = i then k :: callsOf i sched else callsOf i sched := by
  unfold callsOf
  split <;> simp [*]

theorem runSchedule_cons_none {E : Engine V} {D : Device V} {i : Nat} {k : Call}
    (hx : k.run E (D.sessions i, D.regs) = none) (sched : List (Nat × Call)) :
    runSchedule E ((i, k) :: sched) D = [(i, none)] := by
  simp [runSchedule, hx]

theorem runSchedule_cons_some {E : Engine V} {D : Device V} {i : Nat} {c : Ctx V} {k : Call}
    (hi : D.sessions i = c) {r : Except TeeResult (List UInt8)} {c' : Ctx V} {g : Regs V}
    (hx : k.run E (c, D.regs) = some (r, c', g)) (sched : List (Nat × Call)) :
    runSchedule E ((i, k) :: sched) D =
      (i, some (Call.outcome r)) :: runSchedule E sched ⟨Function.update D.sessions i c', g⟩ := by
  subst hi
  simp [runSchedule, hx]

/-- Two SHA-256 sessions on an STM32MP15 engine right after reset. -/
def twoSessions : Device Core := ⟨fun _ => mp15Sha256, resetRegs⟩

/-- Session 1 hashes one byte, then session 0 starts. -/
def initAfterFinal : List (Nat × Call) :=
  [(1, .init []), (1, .update [7]), (1, .final []), (0, .init [])]

/-! ### The FIFO models are of the class

Both keep their working state in context register 0, which every layout saves, so every
session covers what they use.  `fifoEngine` reads one block size for every session;
`crFifoEngine` reads the block size from the algorithm field of `HASH_CR`, which `hw_init` sets
to the running session's algorithm (`crBlockSize_initCr`).
-/

/-- The FIFO models use context register 0 alone, whatever `HASH_CR` holds. -/
def coreReg (_ : BitVec 32) (j : Nat) : Prop := j = 0

theorem Ctx.covers_core (c : Ctx V) : c.Covers coreReg :=
  have h0 : c.saveRegs.Saves 0 := SaveRegs.slot_isSome.mp (by rw [saveRegs_slot_zero]; rfl)
  ⟨fun j (hj : j = 0) => hj ▸ h0, fun _ j (hj : j = 0) => hj ▸ h0⟩

theorem fifoEngine_determined : (fifoEngine B H).Determined coreReg where
  sr hg := by simp only [fifoEngine, hg.csr 0 rfl]
  hr hg := by simp only [fifoEngine, hg.cr, hg.csr 0 rfl]
  din hg w j (hj : j = 0) := by subst hj; simp [fifoEngine, Regs.withCore, hg.csr 0 rfl]
  dcal hg hn j (hj : j = 0) := by subst hj; simp [fifoEngine, Regs.withCore, hg.csr 0 rfl, hn]
  init _ _ _ j (hj : j = 0) := by subst hj; rfl

/-- The block size the algorithm field of `HASH_CR` (bits 17 to 20) selects: 128 bytes for
SHA-384 and SHA-512, the rate of each SHA-3 function, and 64 bytes for MD5, SHA-1 and SHA-2
up to SHA-256, whatever bit 7 holds. -/
def crBlockSize (cr : BitVec 32) : Nat :=
  match ((cr >>> 17) &&& 0xF).toNat with
  | 0xC | 0xF => 128
  | 4 => 144
  | 5 => 136
  | 6 => 104
  | 7 => 72
  | _ => 64

/-- Under the `HASH_CR` that `hw_init` writes, the field selects the session's block size. -/
theorem crBlockSize_initCr {c : Ctx V} (hc : c.Allocated) (key : List UInt8) :
    crBlockSize (c.config.initCr key) = c.blockSize := by
  rw [hc.blockSize]
  simp only [Config.initCr, Ctx.config]
  generalize c.algo = a
  cases a <;> simp only [algoCr] <;> split_ifs <;> decide

/-- The FIFO model with the block size that `HASH_CR` selects: one engine for sessions of
every algorithm. -/
def crFifoEngine (H : BitVec 32 → List (List UInt8) → Nat → BitVec 32) : Engine Core where
  din h w := h.withCore ⟨(h.csr 0).cur ++ [w], (h.csr 0).msgs⟩
  dcal h := h.withCore ⟨[], (h.csr 0).msgs ++ [((h.csr 0).cur, h.str &&& hashStrNblwMask)]⟩
  init h := h.withCore default
  sr h := if dinis (crBlockSize h.cr) (h.csr 0).cur.length then hashSrDinis ||| hashSrDcis
    else hashSrDcis
  hr h := H h.cr (h.csr 0).input

/-- It is `fifoEngine` for the block size `HASH_CR` selects. -/
theorem crFifoEngine_sr (h : Regs Core) :
    (crFifoEngine H).sr h = (fifoEngine (crBlockSize h.cr) H).sr h := rfl

theorem crFifoEngine_neverBusy : (crFifoEngine H).NeverBusy := fun h => by
  rw [crFifoEngine_sr]
  exact fifoEngine_neverBusy h

theorem crFifoEngine_determined : (crFifoEngine H).Determined coreReg where
  sr hg := by simp only [crFifoEngine, hg.cr, hg.csr 0 rfl]
  hr hg := by simp only [crFifoEngine, hg.cr, hg.csr 0 rfl]
  din hg w j (hj : j = 0) := by subst hj; simp [crFifoEngine, Regs.withCore, hg.csr 0 rfl]
  dcal hg hn j (hj : j = 0) := by subst hj; simp [crFifoEngine, Regs.withCore, hg.csr 0 rfl, hn]
  init _ _ _ j (hj : j = 0) := by subst hj; rfl

/-- The SHA-256 and SHA-512 sessions of an STM32MP13 engine. -/
def mp13Sha256 : Ctx Core := (stm32HashAlloc Ctx.calloc (some mp13Caps) .hash .sha256).2
def mp13Sha512 : Ctx Core := (stm32HashAlloc Ctx.calloc (some mp13Caps) .hash .sha512).2

theorem mp13Sha256_wf : mp13Sha256.WF :=
  ⟨(stm32HashAlloc_allocated (show stm32HashAlloc Ctx.calloc (some mp13Caps) .hash .sha256 =
    (.success, mp13Sha256) from rfl)).1, by decide, by decide⟩

theorem mp13Sha512_wf : mp13Sha512.WF :=
  ⟨(stm32HashAlloc_allocated (show stm32HashAlloc Ctx.calloc (some mp13Caps) .hash .sha512 =
    (.success, mp13Sha512) from rfl)).1, by decide, by decide⟩

/-- An SHA-256 session and, as session 1, an SHA-512 session of an STM32MP13 engine right after
reset. -/
def mixedSessions : Device Core := ⟨fun j => if j = 1 then mp13Sha512 else mp13Sha256, resetRegs⟩

theorem mixedSessions_wf (j : Nat) : (mixedSessions.sessions j).WF := by
  by_cases hj : j = 1
  · simpa [mixedSessions, hj] using mp13Sha512_wf
  · simpa [mixedSessions, hj] using mp13Sha256_wf

/-! ### Isolation -/

section Class

variable {E : Engine V} {L : BitVec 32 → Nat → Prop} (hb : E.NeverBusy) (hE : E.Determined L)
include hb hE

/-- Session `i` in a run of a schedule, against an alike state of it that runs the session's
calls alone from any engine state. -/
theorem outcomesOf_runSchedule : ∀ (sched : List (Nat × Call)) (D : Device V),
    (∀ j, (D.sessions j).WF ∧ (D.sessions j).Covers L) → ∀ (i : Nat) {c : Ctx V}, c.WF →
    (D.sessions i).Alike L c → ∀ h : Regs V,
      outcomesOf i (runSchedule E sched D) <+: (runCalls E (callsOf i sched) (c, h)).1 ∧
      ((∀ o ∈ runSchedule E sched D, o.2.isSome) →
        outcomesOf i (runSchedule E sched D) = (runCalls E (callsOf i sched) (c, h)).1)
  | [], _, _, _, _, _, _, _ => by simp [runSchedule, callsOf, runCalls]
  | (j, k) :: sched, D, hD, i, c, hc, hs, h => by
    rw [callsOf_cons]
    rcases hx : k.run E (D.sessions j, D.regs) with _ | ⟨r, c₁, g⟩
    · -- the call runs into undefined behaviour, and nothing runs after it
      rw [runSchedule_cons_none hx, outcomesOf_cons, outcomesOf_nil]
      split_ifs with hji
      · subst hji
        rcases (Call.run_alike hb hE (hD j).1 hc hs (hD j).2 k D.regs h).eq_or with
          ⟨-, hy⟩ | ⟨_, _, _, _, _, hx', -⟩
        · simp [runCalls_cons_none hy]
        · rw [hx] at hx'; cases hx'
      · exact ⟨List.nil_prefix, fun hsome => by simp at hsome⟩
    have hD' : ∀ l, (Function.update D.sessions j c₁ l).WF ∧
        (Function.update D.sessions j c₁ l).Covers L := fun l => by
      by_cases hl : l = j
      · subst hl
        rw [Function.update_same]
        exact ⟨Call.run_wf hb (hD l).1 k hx, Call.run_covers hb hE (hD l).1 (hD l).2 k hx⟩
      · rw [Function.update_noteq hl]; exact hD l
    rw [runSchedule_cons_some rfl hx, outcomesOf_cons]
    split_ifs with hji
    · -- a call of session `i`: the same on its alike state
      subst hji
      rcases (Call.run_alike hb hE (hD j).1 hc hs (hD j).2 k D.regs h).eq_or with
        ⟨hx', -⟩ | ⟨r', _, d₁, _, g', hx', hy, hs₁, -⟩
      · rw [hx] at hx'; cases hx'
      rw [hx] at hx'
      cases hx'
      obtain ⟨ih₁, ih₂⟩ := outcomesOf_runSchedule sched ⟨Function.update D.sessions j c₁, g⟩ hD'
        j (Call.run_wf hb hc k hy) (by dsimp only; rwa [Function.update_same]) g'
      rw [runCalls_cons_some hy]
      exact ⟨(List.prefix_cons_inj _).mpr ih₁,
        fun hsome => by rw [ih₂ fun o ho => hsome o (List.mem_cons_of_mem _ ho)]⟩
    · -- a call of another session leaves session `i` alone
      obtain ⟨ih₁, ih₂⟩ := outcomesOf_runSchedule sched ⟨Function.update D.sessions j c₁, g⟩ hD'
        i hc (by dsimp only; rwa [Function.update_noteq (Ne.symm hji)]) h
      exact ⟨ih₁, fun hsome => ih₂ fun o ho => hsome o (List.mem_cons_of_mem _ ho)⟩

end Class

/-- Under the FIFO model, a session runs as it runs alone. -/
theorem outcomesOf_runSchedule_fifo (sched : List (Nat × Call)) {D : Device Core}
    (hD : ∀ j, (D.sessions j).WF) (i : Nat) :
    outcomesOf i (runSchedule (fifoEngine B H) sched D) <+:
        (runCalls (fifoEngine B H) (callsOf i sched) (D.sessions i, D.regs)).1 ∧
      ((∀ o ∈ runSchedule (fifoEngine B H) sched D, o.2.isSome) →
        outcomesOf i (runSchedule (fifoEngine B H) sched D) =
          (runCalls (fifoEngine B H) (callsOf i sched) (D.sessions i, D.regs)).1) :=
  outcomesOf_runSchedule fifoEngine_neverBusy fifoEngine_determined sched D
    (fun j => ⟨hD j, Ctx.covers_core _⟩) i (hD i) (.refl _) D.regs

/-! ### An engine whose `HASH_SR` reads `HASH_STR` -/

/-- An engine whose behaviour `HASH_STR` determines: it keeps no state, is never busy, always
shows a digest ready, and shows its FIFO empty only while `NBLW` is 0. -/
def nblwEngine : Engine Core where
  din h _ := h.csr
  dcal h := h.csr
  init h := h.csr
  sr h := if h.str &&& hashStrNblwMask = 0 then hashSrDinis ||| hashSrDcis else hashSrDcis
  hr _ _ := 0

theorem nblwEngine_neverBusy : nblwEngine.NeverBusy := by
  intro h
  simp only [nblwEngine]
  split <;> decide

theorem nblwEngine_dcis (h : Regs Core) : nblwEngine.sr h &&& hashSrDcis = hashSrDcis := by
  simp only [nblwEngine]
  split <;> decide

theorem nblwEngine_dinis (h : Regs Core) :
    nblwEngine.sr h &&& hashSrDinis = 0 ↔ h.str &&& hashStrNblwMask ≠ 0 := by
  simp only [nblwEngine]
  split <;> simp_all <;> decide

/-- In hash mode `stm32_hash_final` leaves `NBLW` of the pending bytes in `HASH_STR`. -/
theorem finalRegs_nblw (E : Engine V) {c : Ctx V} (hmode : c.mode = .hash)
    (buf key : List UInt8) (h : Regs V) :
    (finalRegs E c buf key h).str &&& hashStrNblwMask =
      BitVec.ofNat 32 (8 * (c.remainLen % 4)) := by
  have hn := nblw_fits (Nat.mod_lt c.remainLen (by decide : 0 < 4))
  by_cases hr : c.remainLen = 0
  · simp [finalRegs, hr, hmode, Regs.setbitsStr_dcal, Regs.clrbitsStr_eq, Regs.clrsetbitsStr_nblw]
  · simp [finalRegs, hr, hmode, Regs.setbitsStr_dcal, Regs.clrsetbitsStr_nblw _ _ hn.1]

/-- `stm32_hash_init` in hash mode on this engine succeeds exactly when `NBLW` is 0 in the
`HASH_STR` it finds, and leaves that `HASH_STR` as it is. -/
theorem stm32HashInit_nblw {c : Ctx Core} (hc : c.Allocated) (hmode : c.mode = .hash)
    (h : Regs Core) :
    ∃ c₁ h₁, stm32HashInit nblwEngine [] (c, h) =
        some (if h.str &&& hashStrNblwMask = 0 then .ok () else .error .errorBadState, c₁, h₁) ∧
      c₁.WF ∧ c₁.mode = .hash ∧ c₁.remainLen = 0 ∧ c₁.queueSize = c.blockSize + 4 ∧
      h₁.str = h.str := by
  obtain ⟨buf, hbuf, hbl⟩ := hc.remainBuf
  obtain ⟨csr, hcsr, hcl⟩ := hc.csr
  have hstr : (hwInitRegs nblwEngine c [] h).str = h.str := by simp [hwInitRegs, hmode]
  obtain ⟨c₁, he, hm, hr, hq⟩ : ∃ c₁, stm32HashInit nblwEngine [] (c, h) =
      some (if h.str &&& hashStrNblwMask = 0 then .ok () else .error .errorBadState, c₁,
        hwInitRegs nblwEngine c [] h) ∧
      c₁.mode = .hash ∧ c₁.remainLen = 0 ∧ c₁.queueSize = c.blockSize + 4 := by
    rw [stm32HashInit_eq nblwEngine_neverBusy hbuf (by omega) (Or.inr hmode),
      @saveContext_eq _ nblwEngine _ _ csr ?_ ?_, if_pos (nblwEngine_neverBusy _)]
    · by_cases hz : h.str &&& hashStrNblwMask = 0
      · have hd : ¬nblwEngine.sr (hwInitRegs nblwEngine c [] h) &&& hashSrDinis = 0 := by
          rw [nblwEngine_dinis, hstr]; exact not_not.mpr hz
        rw [if_neg hd, if_pos hz]
        exact ⟨_, rfl, hmode, rfl, rfl⟩
      · have hd : nblwEngine.sr (hwInitRegs nblwEngine c [] h) &&& hashSrDinis = 0 := by
          rw [nblwEngine_dinis, hstr]; exact hz
        rw [if_pos hd, if_neg hz]
        exact ⟨_, rfl, hmode, rfl, rfl⟩
    · exact hcsr
    · exact hcl
  exact ⟨c₁, _, he, stm32HashInit_wf nblwEngine_neverBusy hc (Or.inr hmode) he, hm, hr, hq, hstr⟩

end Stm32Hash
