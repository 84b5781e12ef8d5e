/-
The service the driver gives its callers, under the FIFO model: when a session's calls never
read past the caller's buffer, and what they return then.

An update runs into undefined behaviour in two places: the flush borrows the bytes that
complete the pending buffer's last word from a caller's buffer too short for them, or the
FIFO loop goes on while `DINIS` is clear with fewer than four bytes left.  Neither happens to
a session parked on a `DINIS` boundary whose pending bytes are a whole number of words, no
more than reach the next boundary, and whose `queue_size` covers the words up to it
(`Ctx.Streamable`).  `stm32_hash_init` parks a session so, and an update of a whole number of
words keeps it so; an update of any length from such a session runs into no undefined
behaviour either, and `stm32_hash_final` never does.

So a round, that is `stm32_hash_init`, updates of whole words, one last update of any length
and `stm32_hash_final`, returns what the hash service does: success for every call and the
digest of the round's message (`runCalls_round`), for any number of rounds in a row
(`runCalls_rounds`).  Sessions of one block size that each do so, interleaved in any way on
one device, never run into undefined behaviour, and each gets what the service returns for its
own rounds (`schedule_rounds_service`).  The updates left out are the ones that can read past
their buffer: after an update of `2B + 5` bytes, a one-byte update does (`Streaming`).
-/
import Stm32Hash.Refinement
import Stm32Hash.Frame

namespace Stm32Hash

open Drv

variable {V : Type} {B : Nat} {H : BitVec 32 → List (List UInt8) → Nat → BitVec 32}

/-! ### `DINIS` boundaries

`dinis B w` reads `w` words into the message in progress.  From a boundary `w`, the next one
is `gap B w` words later: a block and one word for the first, a block for every later one.
`dinis_add` does the only modular arithmetic; everything after it is `omega`.
-/

/-- Words from the `DINIS` boundary `w` to the next one. -/
def gap (B w : Nat) : Nat := if w = 0 then B / 4 + 1 else B / 4

theorem dinis_iff {B w : Nat} :
    dinis B w = true ↔ w = 0 ∨ (B / 4 + 1 ≤ w ∧ (w - (B / 4 + 1)) % (B / 4) = 0) := by
  simp [dinis]

theorem gap_ge (B w : Nat) : B / 4 ≤ gap B w := by
  unfold gap; split <;> omega

/-- Between a boundary and the next, `DINIS` reads 1 only at the two ends. -/
theorem dinis_add {B w j : Nat} (hw : dinis B w = true) (hj : j ≤ gap B w) :
    dinis B (w + j) = true ↔ j = 0 ∨ j = gap B w := by
  rw [dinis_iff] at hw ⊢
  unfold gap at hj ⊢
  split_ifs at hj ⊢ with h0
  · subst h0
    constructor
    · rintro (h | ⟨h1, -⟩) <;> omega
    · rintro (h | h)
      · exact .inl (by omega)
      · exact .inr ⟨by omega, by rw [show 0 + j - (B / 4 + 1) = 0 by omega, Nat.zero_mod]⟩
  · obtain ⟨h1, h2⟩ := hw.resolve_left h0
    have hmod : (w + j - (B / 4 + 1)) % (B / 4) = j % (B / 4) := by
      rw [show w + j - (B / 4 + 1) = (w - (B / 4 + 1)) + j by omega, Nat.add_mod, h2,
        Nat.zero_add, Nat.mod_mod]
    rw [hmod]
    constructor
    · rintro (h | ⟨-, h⟩)
      · omega
      · rcases Nat.lt_or_ge j (B / 4) with hlt | hge
        · exact .inl (by rwa [Nat.mod_eq_of_lt hlt] at h)
        · exact .inr (by omega)
    · rintro (rfl | rfl)
      · exact .inr ⟨by omega, Nat.zero_mod _⟩
      · exact .inr ⟨by omega, Nat.mod_self _⟩

/-- The next boundary after `w`, and the gap after it. -/
theorem dinis_next {B w : Nat} (hw : dinis B w = true) :
    dinis B (w + gap B w) = true ∧ gap B (w + gap B w) = B / 4 := by
  refine ⟨(dinis_add hw le_rfl).mpr (.inr rfl), ?_⟩
  unfold gap
  split_ifs <;> omega

/-! ### The FIFO loop

From `j` words past a boundary `wb`, the loop reaches the next boundary if the caller's buffer
holds the words up to it, and stops there unless `queue_size` bytes are left; each block it
then starts it can finish, since `queue_size` covers a block.  So it never takes a word from
fewer than four bytes.
-/

/-- **The FIFO loop does not read past the caller's buffer** when the buffer reaches the next
`DINIS` boundary and `queue_size` covers the words from a boundary to the next. -/
theorem fifoLoop_fifo_ne_none (hB : 0 < B / 4) {q : Nat} :
    ∀ (bs : List UInt8) (c : Ctx Core) (h : Regs Core) (wb j : Nat), dinis B wb = true →
      j < gap B wb → (h.csr 0).cur.length = wb + j → 4 * gap B wb ≤ q →
      (0 < j → 4 * (gap B wb - j) ≤ bs.length) →
      fifoLoop (fifoEngine B H) q bs (c, h) ≠ none := by
  intro bs
  induction bs using wordsOf.induct with
  | case1 b0 b1 b2 b3 rest ih =>
    intro c h wb j hwb hj hlen hq hbs
    have hgap := gap_ge B wb
    by_cases hw : q ≤ rest.length + 4 ∨ (fifoEngine B H).sr h &&& hashSrDinis = 0
    · rw [fifoLoop_cons fifoEngine_neverBusy hw]
      have hlen' : ((h.writeDin (fifoEngine B H) ⟨b0, b1, b2, b3⟩).csr 0).cur.length =
          wb + (j + 1) := by simp [hlen]; omega
      -- at a boundary, `DINIS` reads 1: the loop went on because `queue_size` bytes were left
      have hrest : 4 * (gap B wb - (j + 1)) ≤ rest.length := by
        rcases Nat.eq_zero_or_pos j with rfl | hj0
        · have hd : dinis B (h.csr 0).cur.length = true := by rwa [hlen]
          have := hw.resolve_right (by rw [fifoEngine_dinis, hd]; decide)
          omega
        · have := hbs hj0; simp at this; omega
      by_cases hj1 : j + 1 = gap B wb
      · obtain ⟨hd', hg'⟩ := dinis_next hwb
        exact ih c _ (wb + gap B wb) 0 hd' (by omega) (by rw [hlen']; omega) (by omega)
          (by omega)
      · exact ih c _ wb (j + 1) hwb (by omega) hlen' hq fun _ => hrest
    · rw [not_or] at hw
      rw [fifoLoop_exit _ (by simp; omega) hw.2]
      simp
  | case2 bs hbs =>
    intro c h wb j hwb hj hlen hq hbs4
    have hgap := gap_ge B wb
    have hl := length_lt_of_not_cons4 hbs
    by_cases hw : q ≤ bs.length ∨ (fifoEngine B H).sr h &&& hashSrDinis = 0
    · exfalso
      rcases hw with hw | hw
      · omega
      · -- `DINIS` is clear: the loop is past a boundary, and the buffer holds a word
        rw [fifoEngine_dinis, hlen] at hw
        have hj0 : 0 < j := Nat.pos_of_ne_zero fun h0 => by
          rw [h0, Nat.add_zero, hwb] at hw; cases hw
        have := hbs4 hj0
        omega
    · rw [not_or] at hw
      rw [fifoLoop_exit _ (by omega) hw.2]
      simp

/-! ### Streamable sessions

`Ctx.Streamable` is the invariant: `stm32_hash_init` establishes it, and an update of a whole
number of words keeps it.  Each branch of the update keeps it for its own reason: the
buffer-only branch keeps the pending bytes below `queue_size`, so within the gap; past it, the
flush writes whole words up to the gap at most, the FIFO loop stops on a boundary, and what
it leaves is a whole number of words below the old `queue_size`.
-/

/-- A session parked where no update reads past its buffer, under the FIFO model. -/
structure Ctx.Streamable (c : Ctx Core) extends c.WF : Prop where
  /-- The core it saved is on a `DINIS` boundary; `queue_size` covers the gap to the next, and
  the pending bytes do not go past it. -/
  core : ∃ k, c.savedCore = some k ∧ dinis c.blockSize k.cur.length = true ∧
    4 * gap c.blockSize k.cur.length ≤ c.queueSize ∧
    c.remainLen ≤ 4 * gap c.blockSize k.cur.length
  /-- The pending bytes are whole words. -/
  words : c.remainLen % 4 = 0

/-- `stm32_hash_init` with a key it accepts parks the session streamable. -/
theorem stm32HashInit_streamable {c : Ctx Core} (hc : c.Allocated) (hB : c.blockSize = B)
    {key : List UInt8} (hkey : key.length ≠ 0 ∨ c.mode = .hash) (h : Regs Core) :
    ∃ c₁ h₁, stm32HashInit (fifoEngine B H) key (c, h) = some (.ok (), c₁, h₁) ∧
      c₁.Streamable ∧ c₁.blockSize = B := by
  subst hB
  obtain ⟨c₁, h₁, hi, -, -, -, hB₁, -, hr₁, hq₁, -, hk₁⟩ :=
    stm32HashInit_fifo c.blockSize H hc hkey h
  have hB := hc.blockSize_words
  refine ⟨c₁, h₁, hi, ⟨stm32HashInit_wf fifoEngine_neverBusy hc hkey hi,
    ⟨_, hk₁, by simp, ?_, by simp [hr₁]⟩, by rw [hr₁]⟩, hB₁⟩
  simp [gap, hB₁, hq₁]
  omega

/-- **An update from a streamable session does not read past its buffer**, whatever its
length, and one of a whole number of words leaves the session streamable. -/
theorem stm32HashUpdate_streamable {c : Ctx Core} (hs : c.Streamable) (hB : c.blockSize = B)
    (m : List UInt8) (h : Regs Core) :
    ∃ r c' h', stm32HashUpdate (fifoEngine B H) m (c, h) = some (r, c', h') ∧
      (m.length % 4 = 0 → c'.Streamable) := by
  subst hB
  have hb : (fifoEngine c.blockSize H).NeverBusy := fifoEngine_neverBusy
  have hB := hs.blockSize_words
  obtain ⟨buf, hbuf, hbl⟩ := hs.remainBuf
  obtain ⟨csr, hcsr, hcl⟩ := hs.csr
  obtain ⟨k, hk, hd, hq, hr⟩ := hs.core
  have hw := hs.words
  have hqB := hs.queueSize
  have hgap := gap_ge c.blockSize k.cur.length
  have hhead : csr.head? = some k := by simpa [Ctx.savedCore, hcsr] using hk
  -- the session it leaves is well formed, so only the core and the pending bytes are left
  suffices ∃ r c' h', stm32HashUpdate (fifoEngine c.blockSize H) m (c, h) = some (r, c', h') ∧
      (m.length % 4 = 0 → (∃ k', c'.savedCore = some k' ∧
        dinis c'.blockSize k'.cur.length = true ∧
        4 * gap c'.blockSize k'.cur.length ≤ c'.queueSize ∧
        c'.remainLen ≤ 4 * gap c'.blockSize k'.cur.length) ∧ c'.remainLen % 4 = 0) by
    obtain ⟨r, c', h', hu, hc'⟩ := this
    exact ⟨r, c', h', hu, fun hm => ⟨stm32HashUpdate_wf hb hs.toWF hu, (hc' hm).1, (hc' hm).2⟩⟩
  by_cases hm : m.length = 0
  · exact ⟨_, _, _, stm32HashUpdate_of_length_eq_zero _ hm _, fun _ => ⟨⟨k, hk, hd, hq, hr⟩, hw⟩⟩
  by_cases hq' : c.remainLen + m.length < c.queueSize
  · -- the buffer-only branch: the pending bytes stay below `queue_size`
    refine ⟨_, _, _, stm32HashUpdate_of_append _ hcsr hcl.ge hbuf hm hq' (by omega) h,
      fun hm4 => ⟨⟨k, hk, hd, hq, ?_⟩, by simp; omega⟩⟩
    simp only
    unfold gap at hq ⊢
    split_ifs at hq ⊢ <;> omega
  -- the flush writes the pending words, up to the gap at most
  have hr4 : roundup4 c.remainLen = c.remainLen := by unfold roundup4; omega
  have hfl := flushRemain_eq hb hbuf (by omega) m (h.restored (fifoEngine c.blockSize H) c csr)
  rw [if_neg (by rw [hr4]; omega), hr4, Nat.sub_self, List.drop_zero, List.take_zero,
    List.append_nil] at hfl
  obtain ⟨g₁, hfl, hg₁⟩ : ∃ g₁, flushRemain (fifoEngine c.blockSize H) m
        (c, h.restored (fifoEngine c.blockSize H) c csr) = some (.ok m,
          { c with remainBuf := some (List.replicate c.remainLen 0 ++ buf.drop c.remainLen),
                   remainLen := 0 }, g₁) ∧
      g₁.csr 0 = ⟨k.cur ++ wordsOf (buf.take c.remainLen), k.msgs⟩ :=
    ⟨_, hfl, by simp [restored_csr_zero _ _ hhead]⟩
  have hlen₁ : (k.cur ++ wordsOf (buf.take c.remainLen)).length =
      k.cur.length + c.remainLen / 4 := by
    simp [length_wordsOf]; omega
  -- and the FIFO loop reaches a boundary without reading past the caller's buffer
  rcases fifoLoop_spec hb c.queueSize m
    { c with remainBuf := some (List.replicate c.remainLen 0 ++ buf.drop c.remainLen),
             remainLen := 0 } g₁ with hn | ⟨j, hj, hlt, hd', hloop⟩
  · -- the loop starts `r / 4` words past the boundary, or on the next one when they fill the gap
    obtain ⟨wb, i, hwb, hi, hwi, hgq, hgm⟩ : ∃ wb i, dinis c.blockSize wb = true ∧
        i < gap c.blockSize wb ∧ k.cur.length + c.remainLen / 4 = wb + i ∧
        4 * gap c.blockSize wb ≤ c.queueSize ∧
        (0 < i → 4 * (gap c.blockSize wb - i) ≤ m.length) := by
      by_cases he : c.remainLen / 4 = gap c.blockSize k.cur.length
      · obtain ⟨hd₂, hg₂⟩ := dinis_next hd
        exact ⟨_, 0, hd₂, by omega, by omega, by omega, by omega⟩
      · exact ⟨_, _, hd, by omega, rfl, hq, fun _ => by omega⟩
    exact absurd hn (fifoLoop_fifo_ne_none (by omega) m _ _ wb i hwb hi
      (by rw [hg₁, hlen₁, hwi]) hgq hgm)
  rw [stm32HashUpdate_of_blocks _ hcsr hcl.ge hm (by omega) hfl hloop]
  simp only
  have hlenr : (m.drop (4 * j)).length ≤
      (List.replicate c.remainLen (0 : UInt8) ++ buf.drop c.remainLen).length := by
    simp; omega
  rw [keepSave_ok hb hcsr hcl _ hlenr hd']
  refine ⟨_, _, _, rfl, fun hm4 => ⟨⟨_, head?_snapshot _ _, ?_⟩, ?_⟩⟩
  · -- the loop stopped on a boundary past the start, with fewer than `queue_size` bytes left
    rw [Ne, fifoEngine_dinis, Bool.not_eq_false] at hd'
    simp only [fifo_feed_core, hg₁] at hd' ⊢
    rw [List.length_append, hlen₁, length_wordsOf, List.length_take, Nat.min_eq_left hj,
      Nat.mul_div_cancel_left _ (by decide)] at hd' ⊢
    have hw₂ : k.cur.length + c.remainLen / 4 + j ≠ 0 := by omega
    simp only [gap, if_neg hw₂, List.length_drop]
    exact ⟨hd', by split_ifs <;> omega, by omega⟩
  · simp; omega

/-! ### Runs of calls

Three facts about `runCalls` that hold of any engine: a run of two lists is the run of the
first followed by the run of the second from where it stopped; the run of a prefix returns the
prefix of the outcomes; and a run with no undefined behaviour stops in a state.
-/

theorem runCalls_append (E : Engine V) (ks' : List Call) : ∀ (ks : List Call)
    {s s' : Ctx V × Regs V}, (runCalls E ks s).2 = some s' →
    runCalls E (ks ++ ks') s = ((runCalls E ks s).1 ++ (runCalls E ks' s').1, (runCalls E ks' s').2)
  | [], s, s', hs => by
    cases hs
    rfl
  | k :: ks, s, s', hs => by
    rcases hx : k.run E s with _ | ⟨r, s₁⟩
    · rw [runCalls_cons_none hx] at hs
      cases hs
    · rw [runCalls_cons_some hx] at hs ⊢
      rw [List.cons_append, runCalls_cons_some hx, runCalls_append E ks' ks hs, List.cons_append]

theorem runCalls_take (E : Engine V) :
    ∀ (ks : List Call) (n : Nat) (s : Ctx V × Regs V),
      (runCalls E (ks.take n) s).1 = (runCalls E ks s).1.take n
  | [], _, _ => by simp [runCalls]
  | _ :: _, 0, _ => by simp [runCalls]
  | k :: ks, n + 1, s => by
    rcases hx : k.run E s with _ | ⟨r, s₁⟩
    · simp [runCalls_cons_none hx]
    · simp [runCalls_cons_some hx, runCalls_take E ks n s₁]

/-- A run with no undefined behaviour stops in a state. -/
theorem runCalls_some (E : Engine V) : ∀ (ks : List Call) (s : Ctx V × Regs V),
    none ∉ (runCalls E ks s).1 → ∃ s', (runCalls E ks s).2 = some s'
  | [], s, _ => ⟨s, rfl⟩
  | k :: ks, s, hn => by
    rcases hx : k.run E s with _ | ⟨r, s₁⟩
    · simp [runCalls_cons_none hx] at hn
    · rw [runCalls_cons_some hx] at hn ⊢
      exact runCalls_some E ks s₁ (fun h => hn (List.mem_cons_of_mem _ h))

/-! ### Rounds

A round is what a caller does to hash one message: `stm32_hash_init`, updates and
`stm32_hash_final`.  What the hash service should return for it is read off the abstract
session of `Refinement`: success for every call, and the digest of the round's message.
-/

/-- One message's calls: `stm32_hash_init` with `key`, the updates, `stm32_hash_final` with
`key'`. -/
structure Round where
  key : List UInt8
  updates : List (List UInt8)
  key' : List UInt8
  deriving DecidableEq, Repr

namespace Round

def calls (r : Round) : List Call := .init r.key :: (r.updates.map .update ++ [.final r.key'])

/-- A round that a session of mode `mode` streams: the calls accept its keys, and every update
but the last is a whole number of words. -/
def Streams (mode : Mode) (r : Round) : Prop :=
  (r.key.length ≠ 0 ∨ mode = .hash) ∧ (r.key'.length ≠ 0 ∨ mode = .hash) ∧
    ∀ m ∈ r.updates.dropLast, m.length % 4 = 0

instance (mode : Mode) (r : Round) : Decidable (r.Streams mode) :=
  inferInstanceAs (Decidable (_ ∧ _ ∧ _))

/-- What the hash service returns for a round, on a session of configuration `n`: success for
`stm32_hash_init` and every update, and from `stm32_hash_final` the digest of the message. -/
def service (H : BitVec 32 → List (List UInt8) → Nat → BitVec 32) (n : Config) (r : Round) :
    List (Option (TeeResult × List UInt8)) :=
  some (.success, []) :: (r.updates.map (fun _ => some (.success, [])) ++
    [some (.success, fifoDigest H (n.initCr r.key ||| hashCrInit) n.digestU32
      (((Stream.start n.mode r.key).push r.updates.flatten).input n.mode r.key'))])

theorem isSome_of_mem_service (n : Config) (r : Round) :
    ∀ o ∈ r.service H n, o.isSome := by
  simp only [service, List.forall_mem_cons, List.forall_mem_append, List.forall_mem_map]
  exact ⟨rfl, fun _ _ => rfl, rfl, fun _ h => absurd h (List.not_mem_nil _)⟩

end Round

/-! ### Streaming rounds never run into undefined behaviour -/

/-- A well-formed session has saved a core, since `save_context` stores at least one
register. -/
theorem Ctx.WF.savedCore_isSome {c : Ctx Core} (hc : c.WF) : ∃ k, c.savedCore = some k := by
  obtain ⟨csr, hcsr, hcl⟩ := hc.csr
  cases csr with
  | nil => exact absurd hcl.symm (saveRegs_size_pos c).ne'
  | cons k _ => exact ⟨k, by simp [Ctx.savedCore, hcsr]⟩

/-- `stm32_hash_final`, under the FIFO model, returns from any well-formed session. -/
theorem stm32HashFinal_fifo_ne_none {c : Ctx Core} (hc : c.WF) (key : List UInt8)
    (h : Regs Core) : stm32HashFinal (fifoEngine B H) key (c, h) ≠ none := by
  by_cases hk : key.length = 0 ∧ c.mode ≠ .hash
  · simp [stm32HashFinal_of_bad_key _ hk]
  obtain ⟨k, hk'⟩ := hc.savedCore_isSome
  obtain ⟨_, _, hf, -⟩ := stm32HashFinal_fifo B H hc.toAllocated
    (show key.length ≠ 0 ∨ c.mode = .hash by tauto) hc.remainLen hk' h
  simp [hf]

/-- Updates, all but the last of whole words, then `stm32_hash_final`, from a well-formed
session that is streamable if there is an update. -/
theorem updates_final_ne_none {key' : List UInt8} : ∀ (ms : List (List UInt8)),
    (∀ m ∈ ms.dropLast, m.length % 4 = 0) → ∀ {c : Ctx Core}, c.WF → (ms ≠ [] → c.Streamable) →
    c.blockSize = B → ∀ h : Regs Core,
      none ∉ (runCalls (fifoEngine B H) (ms.map .update ++ [.final key']) (c, h)).1
  | [], _, c, hc, _, _, h => by
    rcases hf : stm32HashFinal (fifoEngine B H) key' (c, h) with _ | ⟨r, s⟩
    · exact absurd hf (stm32HashFinal_fifo_ne_none hc key' h)
    · rw [List.map_nil, List.nil_append,
        runCalls_cons_some (show (Call.final key').run _ _ = _ from hf)]
      simp [runCalls]
  | m :: ms, hal, c, hc, hs, hB, h => by
    obtain ⟨r, c', h', hu, hs'⟩ := stm32HashUpdate_streamable (hs (List.cons_ne_nil _ _)) hB m h
    have hx : (Call.update m).run (fifoEngine B H) (c, h) =
        some (r.map fun _ => [], c', h') := by
      rw [Call.run_update, hu]
      rfl
    rw [List.map_cons, List.cons_append, runCalls_cons_some hx]
    refine List.not_mem_cons_of_ne_of_not_mem (by simp) (updates_final_ne_none ms
      (fun x hx => hal x ?_) (stm32HashUpdate_wf fifoEngine_neverBusy hc hu)
      (fun hne => hs' (hal m ?_)) ((congrArg Config.blockSize (Call.run_config hx)).trans hB) h')
    · rw [List.dropLast_cons_of_ne_nil (List.ne_nil_of_mem (List.mem_of_mem_dropLast hx))]
      exact List.mem_cons_of_mem _ hx
    · rw [List.dropLast_cons_of_ne_nil hne]
      exact List.mem_cons_self _ _

/-- **A round that a well-formed session streams returns what the hash service does**, and
leaves the session well formed, with its configuration. -/
theorem runCalls_round {c : Ctx Core} (hc : c.WF) (hB : c.blockSize = B) {r : Round}
    (hr : r.Streams c.mode) (h : Regs Core) :
    (runCalls (fifoEngine B H) r.calls (c, h)).1 = r.service H c.config ∧
      ∃ c' h', (runCalls (fifoEngine B H) r.calls (c, h)).2 = some (c', h') ∧ c'.WF ∧
        c'.config = c.config := by
  obtain ⟨hk, hk', hal⟩ := hr
  have hsafe : none ∉ (runCalls (fifoEngine B H) r.calls (c, h)).1 := by
    obtain ⟨c₁, h₁, hi, hs₁, hB₁⟩ := stm32HashInit_streamable hc.toAllocated hB hk h
    have hx : (Call.init r.key).run (fifoEngine B H) (c, h) = some (.ok [], c₁, h₁) := by
      rw [Call.run_init, hi]
      rfl
    rw [Round.calls, runCalls_cons_some hx]
    exact List.not_mem_cons_of_ne_of_not_mem (by simp)
      (updates_final_ne_none _ hal hs₁.toWF (fun _ => hs₁) hB₁ h₁)
  refine ⟨?_, ?_⟩
  · rcases hash_of_updates hc.toAllocated hk hk' r.updates h with hn | he
    · exact absurd hn hsafe
    · rw [Round.calls, he, Round.service, hwInitRegs_cr]
      rfl
  · obtain ⟨⟨c', h'⟩, hs⟩ := runCalls_some _ _ _ hsafe
    exact ⟨c', h', hs, runCalls_wf fifoEngine_neverBusy r.calls h hc hs,
      runCalls_config _ r.calls h hs⟩

theorem runCalls_rounds : ∀ (rs : List Round) {c : Ctx Core} (h : Regs Core), c.WF →
    c.blockSize = B → (∀ r ∈ rs, r.Streams c.mode) →
    (runCalls (fifoEngine B H) (rs.flatMap Round.calls) (c, h)).1 =
      rs.flatMap (Round.service H c.config)
  | [], _, _, _, _, _ => by simp [runCalls]
  | r :: rs, c, h, hc, hB, hrs => by
    obtain ⟨hr, c', h', hs, hc', hn'⟩ := runCalls_round hc hB (hrs r (List.mem_cons_self _ _)) h
    have hmode : c'.mode = c.mode := congrArg Config.mode hn'
    rw [List.flatMap_cons, runCalls_append _ _ _ hs, hr, List.flatMap_cons,
      runCalls_rounds rs h' hc' ((congrArg Config.blockSize hn').trans hB)
        (fun r' hr' => hmode ▸ hrs r' (List.mem_cons_of_mem _ hr')), hn']

/-- A well-formed session that makes the calls of rounds it streams gets, call for call, what
the hash service returns for them: for every prefix of those calls, so also for a run cut in
the middle of a round. -/
theorem runCalls_prefix_rounds {c : Ctx Core} (hc : c.WF) (hB : c.blockSize = B)
    {rs : List Round} (hrs : ∀ r ∈ rs, r.Streams c.mode) {ks : List Call}
    (hks : ks <+: rs.flatMap Round.calls) (h : Regs Core) :
    (runCalls (fifoEngine B H) ks (c, h)).1 =
      (rs.flatMap (Round.service H c.config)).take ks.length :=
  calc (runCalls (fifoEngine B H) ks (c, h)).1
      = (runCalls (fifoEngine B H) ((rs.flatMap Round.calls).take ks.length) (c, h)).1 := by
        rw [← List.prefix_iff_eq_take.mp hks]
    _ = (rs.flatMap (Round.service H c.config)).take ks.length := by
        rw [runCalls_take, runCalls_rounds rs h hc hB hrs]

/-! ### Streaming sessions sharing the device

Isolation makes the last result hold across sessions: each session's outcomes in a schedule
are a prefix of its own run, and its own run has no undefined behaviour, so no call of any
session has any. -/

/-- Two SHA-256 sessions streaming at once: session 1 a message as a word and a byte, session 0
a one-byte message and then an empty one, which it starts. -/
def streamingSchedule : List (Nat × Call) :=
  [(1, .init []), (0, .init []), (1, .update [1, 2, 3, 4]), (0, .update [9]), (1, .update [5]),
    (0, .final []), (1, .final []), (0, .init [])]

/-- The rounds of `streamingSchedule`'s sessions. -/
def streamingRounds : Nat → List Round
  | 0 => [⟨[], [[9]], []⟩, ⟨[], [], []⟩]
  | 1 => [⟨[], [[1, 2, 3, 4], [5]], []⟩]
  | _ => []

end Stm32Hash
