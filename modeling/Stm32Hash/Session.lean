/-
Sessions: the calls a client makes, runs of them, and the sessions they reach.

A client drives its session with `stm32_hash_init`, `stm32_hash_update` and
`stm32_hash_final` (`Call`); `runCalls` runs a list of them on one session and records what
each returns, until one runs into undefined behaviour.  `Reachable` is the set of sessions
`stm32_hash_init` and then any updates can leave, whatever the engine held before each call
(other sessions may have run in between).

On an engine that is never busy every reachable session is well formed (`Ctx.WF`): its
pending bytes and its queue size stay within the `B + 4` bytes of its pending buffer.  Each
`memcpy` into `remain.buf` is bounded by one of the two (`remain.len + len < queue_size` in
the buffer-only branch, `ROUNDUP(remain.len, 4)` in the flush, the leftover bytes below the
queue size in the copy after the loop), so none of them writes past the buffer.
-/
import Stm32Hash.DriverSpec

namespace Stm32Hash

open Drv

variable {V : Type}

/-! ### Calls and runs -/

/-- A call a client makes on its session. -/
inductive Call
  | init (key : List UInt8)
  | update (buffer : List UInt8)
  | final (key : List UInt8)
  deriving DecidableEq, Repr

/-- The call as the driver runs it; the value of `final` is the digest it stores. -/
def Call.run (E : Engine V) : Call → Drv V (List UInt8)
  | .init key => do stm32HashInit E key; return []
  | .update buffer => do stm32HashUpdate E buffer; return []
  | .final key => stm32HashFinal E key

/-- What a call returns to its caller: the result code, and the digest `final` stores. -/
def Call.outcome : Except TeeResult (List UInt8) → TeeResult × List UInt8
  | .ok d => (.success, d)
  | .error e => (e, [])

/-- Calls run one after another on one session: what each returns (`none` for the call that
runs into undefined behaviour, after which nothing runs), and the state at the end. -/
def runCalls (E : Engine V) : List Call → Ctx V × Regs V →
    List (Option (TeeResult × List UInt8)) × Option (Ctx V × Regs V)
  | [], s => ([], some s)
  | k :: ks, s =>
    match k.run E s with
    | none => ([none], none)
    | some (r, s') => (some (Call.outcome r) :: (runCalls E ks s').1, (runCalls E ks s').2)

theorem runCalls_cons_none {E : Engine V} {k : Call} {s : Ctx V × Regs V}
    (hx : k.run E s = none) (ks : List Call) : runCalls E (k :: ks) s = ([none], none) := by
  simp [runCalls, hx]

theorem runCalls_cons_some {E : Engine V} {k : Call} {s s' : Ctx V × Regs V}
    {r : Except TeeResult (List UInt8)} (hx : k.run E s = some (r, s')) (ks : List Call) :
    runCalls E (k :: ks) s =
      (some (Call.outcome r) :: (runCalls E ks s').1, (runCalls E ks s').2) := by
  simp [runCalls, hx]

/-- What every call keeps, every run of calls keeps. -/
theorem runCalls_inv {E : Engine V} {P : Ctx V → Prop}
    (hP : ∀ (k : Call) {c c' : Ctx V} {h h' : Regs V} {r : Except TeeResult (List UInt8)},
      P c → k.run E (c, h) = some (r, c', h') → P c') :
    ∀ (ks : List Call) {c c' : Ctx V} {h h' : Regs V},
      P c → (runCalls E ks (c, h)).2 = some (c', h') → P c'
  | [], _, _, _, _, hc, he => by
    cases he
    exact hc
  | k :: ks, c, c', h, h', hc, he => by
    rcases hx : k.run E (c, h) with _ | ⟨r, c₁, h₁⟩
    · rw [runCalls_cons_none hx] at he
      cases he
    · rw [runCalls_cons_some hx] at he
      exact runCalls_inv hP ks (hP k hc hx) he

theorem Call.run_update (E : Engine V) (m : List UInt8) (s : Ctx V × Regs V) :
    (Call.update m).run E s = (stm32HashUpdate E m s).map fun x => (x.1.map fun _ => [], x.2) := by
  simp only [Call.run, bind_apply, pure_apply]
  rcases stm32HashUpdate E m s with _ | ⟨_ | _, _⟩ <;> rfl

theorem Call.run_init (E : Engine V) (key : List UInt8) (s : Ctx V × Regs V) :
    (Call.init key).run E s = (stm32HashInit E key s).map fun x => (x.1.map fun _ => [], x.2) := by
  simp only [Call.run, bind_apply, pure_apply]
  rcases stm32HashInit E key s with _ | ⟨_ | _, _⟩ <;> rfl

/-! ### Reachable sessions -/

/-- The sessions `stm32_hash_init` and any updates after it can leave, whatever the engine
held before each call. -/
inductive Reachable (E : Engine V) : Ctx V → Prop
  | init {c c' : Ctx V} {h h' : Regs V} {key : List UInt8} : c.Allocated →
      stm32HashInit E key (c, h) = some (.ok (), c', h') → Reachable E c'
  | update {c c' : Ctx V} {h h' : Regs V} {m : List UInt8} {r : Except TeeResult Unit} :
      Reachable E c → stm32HashUpdate E m (c, h) = some (r, c', h') → Reachable E c'

/-- `save_context` keeps a session well formed, whether it succeeds or not. -/
theorem saveContext_wf (E : Engine V) {c c' : Ctx V} (hc : c.WF) {h h' : Regs V}
    {r : Except TeeResult Unit} (hs : saveContext E (c, h) = some (r, c', h')) : c'.WF := by
  obtain ⟨csr, hcsr, hcl⟩ := hc.csr
  rw [saveContext_eq E c h hcsr hcl] at hs
  split_ifs at hs <;> cases hs
  · exact hc
  · exact ⟨⟨hc.blockSize, hc.saveMode, hc.remainBuf, ⟨_, rfl, by simp [Ctx.saveRegs]⟩⟩,
      hc.remainLen, hc.queueSize⟩
  · exact hc

section NeverBusy

variable {E : Engine V} (hb : E.NeverBusy)
include hb

/-- `stm32_hash_init` with a key it accepts leaves a well-formed session, whatever it
returns. -/
theorem stm32HashInit_wf {c c' : Ctx V} (hc : c.Allocated) {key : List UInt8} {h h' : Regs V}
    {r : Except TeeResult Unit} (hk : key.length ≠ 0 ∨ c.mode = .hash)
    (hi : stm32HashInit E key (c, h) = some (r, c', h')) : c'.WF := by
  obtain ⟨buf, hbuf, hbl⟩ := hc.remainBuf
  rw [stm32HashInit_eq hb hbuf (by omega) hk] at hi
  refine saveContext_wf E ?_ hi
  exact ⟨hc.withRemain (by simp [hbl]), by simp, by simp⟩

/-- An update keeps a session well formed. -/
theorem stm32HashUpdate_wf {c c' : Ctx V} (hc : c.WF) {m : List UInt8} {h h' : Regs V}
    {r : Except TeeResult Unit} (hu : stm32HashUpdate E m (c, h) = some (r, c', h')) :
    c'.WF := by
  have hB := hc.blockSize_words
  obtain ⟨buf, hbuf, hbl⟩ := hc.remainBuf
  obtain ⟨csr, hcsr, hcl⟩ := hc.csr
  by_cases hm : m.length = 0
  · rw [stm32HashUpdate_of_length_eq_zero E hm] at hu
    cases hu; exact hc
  by_cases hq : c.remainLen + m.length < c.queueSize
  · have := hc.queueSize
    rw [stm32HashUpdate_of_append E hcsr hcl.ge hbuf hm hq (by omega) h] at hu
    cases hu
    exact ⟨hc.withRemain (by simp; omega), by simp; omega, hc.queueSize⟩
  -- the flush leaves the session with an empty pending buffer of the same size
  obtain ⟨rest, buf₁, h₁, hflush, hbl₁⟩ : ∃ rest buf₁ h₁,
      flushRemain E m (c, h.restored E c csr) =
        some (.ok rest, { c with remainBuf := some buf₁, remainLen := 0 }, h₁) ∧
      buf₁.length = buf.length := by
    have hround : roundup4 c.remainLen ≤ buf.length := by
      have := hc.remainLen; unfold roundup4; omega
    by_cases hr : c.remainLen = 0
    · refine ⟨m, buf, h.restored E c csr, ?_, rfl⟩
      rw [flushRemain_of_remainLen_eq_zero E hr, ← hr, ← hbuf]
    · by_cases hal : roundup4 c.remainLen - c.remainLen ≤ m.length
      · exact ⟨_, _, _, flushRemain_ok hb hr hbuf hround hal _, by simp; omega⟩
      · rw [stm32HashUpdate_of_flush_none E hcsr hcl.ge hm (by omega)
          (flushRemain_of_length_lt E hr hbuf (by omega) _)] at hu
        cases hu
  rcases fifoLoop_spec hb c.queueSize rest _ h₁ with hn | ⟨k, -, hlt, -, hloop⟩
  · rw [stm32HashUpdate_of_loop_none E hcsr hcl.ge hm (by omega) hflush hn] at hu
    cases hu
  rw [stm32HashUpdate_of_blocks E hcsr hcl.ge hm (by omega) hflush hloop] at hu
  simp only at hu
  -- the next queue size is `B` or the current one, within the buffer either way
  have hqs :
      (if rest.length ≥ c.queueSize then c.blockSize else c.queueSize) ≤ c.blockSize + 4 := by
    have := hc.queueSize; split <;> omega
  generalize (if rest.length ≥ c.queueSize then c.blockSize else c.queueSize) = qs at hu hqs
  have hwf : ({ c with remainBuf := some buf₁, remainLen := 0, queueSize := qs } : Ctx V).WF :=
    ⟨hc.withRemain (by omega), by simp, hqs⟩
  split at hu
  · have := hc.queueSize
    rw [bind_of_ok (@keepRemain_ok _ _ buf₁ ?_ ?_ _ ?_ _)] at hu
    · refine saveContext_wf E ?_ hu
      exact ⟨hc.withRemain (by simp; omega), by simp; omega, hqs⟩
    · rfl
    · rfl
    · simp; omega
  · exact saveContext_wf E hwf hu

/-- `stm32_hash_final` keeps a session well formed. -/
theorem stm32HashFinal_wf {c c' : Ctx V} (hc : c.WF) {key : List UInt8} {h h' : Regs V}
    {r : Except TeeResult (List UInt8)} (hf : stm32HashFinal E key (c, h) = some (r, c', h')) :
    c'.WF := by
  by_cases hk : key.length = 0 ∧ c.mode ≠ .hash
  · rw [stm32HashFinal_of_bad_key E hk] at hf
    cases hf; exact hc
  have hB := hc.blockSize_words
  obtain ⟨buf, hbuf, hbl⟩ := hc.remainBuf
  obtain ⟨csr, hcsr, hcl⟩ := hc.csr
  have hlen : roundup4 c.remainLen ≤ buf.length := by
    have := hc.remainLen; unfold roundup4; omega
  rw [stm32HashFinal_eq hb hcsr hcl.ge hbuf hlen (by tauto)] at hf
  simp only at hf
  split_ifs at hf <;> cases hf
  all_goals first
    | exact hc
    | exact ⟨hc.withRemain (by simp; omega), by simp, hc.queueSize⟩

/-- Every call keeps a session well formed. -/
theorem Call.run_wf {c c' : Ctx V} (hc : c.WF) (k : Call) {h h' : Regs V}
    {r : Except TeeResult (List UInt8)} (hk : k.run E (c, h) = some (r, c', h')) : c'.WF := by
  cases k with
  | init key =>
    obtain ⟨⟨r₀, c₀, h₀⟩, hi, he⟩ := Option.map_eq_some'.mp ((Call.run_init E key _).symm.trans hk)
    cases he
    by_cases hk : key.length = 0 ∧ c.mode ≠ .hash
    · rw [stm32HashInit_of_bad_key E hk] at hi
      cases hi; exact hc
    · exact stm32HashInit_wf hb hc.toAllocated (by tauto) hi
  | update m =>
    obtain ⟨⟨r₀, c₀, h₀⟩, hu, he⟩ := Option.map_eq_some'.mp ((Call.run_update E m _).symm.trans hk)
    cases he
    exact stm32HashUpdate_wf hb hc hu
  | final key => exact stm32HashFinal_wf hb hc hk

/-- Every run of calls keeps a session well formed: whatever each call returns, in any order,
up to the first call that runs into undefined behaviour. -/
theorem runCalls_wf (ks : List Call) {c : Ctx V} (h : Regs V) {c' : Ctx V} {h' : Regs V}
    (hc : c.WF) (he : (runCalls E ks (c, h)).2 = some (c', h')) : c'.WF :=
  runCalls_inv (fun k _ _ _ _ _ hc hk => Call.run_wf hb hc k hk) ks hc he

/-- **Every session `stm32_hash_init` and any updates reach is well formed: its pending bytes
and its queue size stay within the `B + 4` bytes of its pending buffer.** -/
theorem Reachable.wf {c : Ctx V} (hc : Reachable E c) : c.WF := by
  induction hc with
  | @init c c' h h' key ha hi =>
    by_cases hk : key.length = 0 ∧ c.mode ≠ .hash
    · rw [stm32HashInit_of_bad_key E hk] at hi
      cases hi
    · exact stm32HashInit_wf hb ha (by tauto) hi
  | update _ hu ih => exact stm32HashUpdate_wf hb ih hu

end NeverBusy

end Stm32Hash
