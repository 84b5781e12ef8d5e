/-
What a session is for, and that the driver does it under the FIFO model, short of undefined
behaviour.

A hash session is a message that grows: `stm32_hash_init` starts it, in HMAC mode after a
message of the key; every `stm32_hash_update` appends its bytes; `stm32_hash_final` closes it,
in HMAC mode sends the key once more, and returns the digest of all the engine took.  `Stream`
is that session, with nothing of the driver in it.

A parked session carries its stream in two places: the bytes of the words its saved core took,
and the bytes pending in `remain.buf` (`Ctx.stream`).  An update moves pending bytes into the
engine and puts its own after them, in whichever branch it takes (`stm32HashUpdate_stream`),
unless it reads past the caller's buffer; under the FIFO model nothing else can happen to it.
So after `stm32_hash_init`, any updates and `stm32_hash_final`, either some call ran into
undefined behaviour, or every call succeeded and the digest is that of the concatenation of
the updates (`hash_of_updates`): how a message is cut into updates decides whether a call
reads past its buffer, and nothing else.  With isolation, the same holds of a session whose
calls are interleaved with other sessions' calls on one device (`schedule_hash_of_updates`).
-/
import Stm32Hash.Isolation
import Stm32Hash.Twin

namespace Stm32Hash

open Drv

variable {V : Type} {B : Nat} {H : BitVec 32 → List (List UInt8) → Nat → BitVec 32}

/-! ### The abstract session -/

/-- A hash session as its client sees it: the messages the engine closed, and the bytes of
the message in progress. -/
structure Stream where
  closed : List (List UInt8)
  msg : List UInt8
  deriving DecidableEq, Repr

namespace Stream

/-- The session `stm32_hash_init` starts: in HMAC mode the key is a message of its own. -/
def start (mode : Mode) (key : List UInt8) : Stream :=
  ⟨if mode = .hmac then [key] else [], []⟩

/-- An update appends its bytes to the message in progress. -/
def push (s : Stream) (m : List UInt8) : Stream := ⟨s.closed, s.msg ++ m⟩

/-- All the engine takes once `stm32_hash_final` closes the message: in HMAC mode the key
follows it. -/
def input (s : Stream) (mode : Mode) (key : List UInt8) : List (List UInt8) :=
  s.closed ++ [s.msg] ++ if mode = .hmac then [key] else []

@[simp] theorem push_nil (s : Stream) : s.push [] = s := by simp [push]

theorem push_push (s : Stream) (m m' : List UInt8) : (s.push m).push m' = s.push (m ++ m') := by
  simp [push]

end Stream

/-- The digest the FIFO model shows: `n` words of `H` of `HASH_CR` and of the input, each
read big-endian. -/
def fifoDigest (H : BitVec 32 → List (List UInt8) → Nat → BitVec 32) (cr : BitVec 32) (n : Nat)
    (input : List (List UInt8)) : List UInt8 :=
  (List.range n).flatMap fun i => beBytes (H cr input i)

theorem digestOf_fifoEngine (c : Ctx Core) (h : Regs Core) :
    digestOf (fifoEngine B H) c h = fifoDigest H h.cr c.digestU32 (h.csr 0).input := rfl

/-! ### The stream a parked session carries -/

/-- The stream of a parked session: the input its saved core took, and the bytes of the core's
words in progress followed by the pending bytes. -/
def Ctx.stream (c : Ctx Core) : Option Stream :=
  c.savedCore.map fun k => ⟨k.input, k.cur.flatMap Word.bytes ++ c.pending⟩

/-- The stream of a session `save_context` just parked, with new pending bytes. -/
theorem stream_saved (c : Ctx Core) (g : Regs Core) (q : Nat) (b : List UInt8) (n : Nat) :
    ({ c with queueSize := q, remainBuf := some b, remainLen := n, imr := g.imr, str := g.str,
               cr := g.cr, csr := some (g.snapshot c.saveRegs) } : Ctx Core).stream =
      some ⟨(g.csr 0).input, (g.csr 0).cur.flatMap Word.bytes ++ b.take n⟩ := by
  simp [Ctx.stream, Ctx.savedCore, head?_snapshot, Ctx.pending]

/-- Whole words give back the bytes they were read from. -/
theorem flatMap_bytes_wordsOf_of_mod {bs : List UInt8} (h : bs.length % 4 = 0) :
    (wordsOf bs).flatMap Word.bytes = bs := by
  rw [flatMap_bytes_wordsOf, List.take_of_length_le (by omega)]

/-- The end of an update past the buffer-only branch, when the FIFO loop stopped with `DINIS`
set: the bytes left are kept, and the context is saved. -/
theorem keepSave_ok {E : Engine V} (hb : E.NeverBusy) {c : Ctx V} {csr : List V}
    (hcsr : c.csr = some csr) (hl : csr.length = c.saveRegs.size) (q : Nat)
    {buf rest : List UInt8} (hlen : rest.length ≤ buf.length) {g : Regs V}
    (hd : E.sr g &&& hashSrDinis ≠ 0) :
    (if rest.length ≠ 0 then
        (keepRemain rest >>= fun _ => saveContext E)
          ({ c with queueSize := q, remainBuf := some buf, remainLen := 0 }, g)
      else saveContext E ({ c with queueSize := q, remainBuf := some buf, remainLen := 0 }, g)) =
      some (.ok (), { c with queueSize := q, remainBuf := some (rest ++ buf.drop rest.length),
                             remainLen := rest.length, imr := g.imr, str := g.str, cr := g.cr,
                             csr := some (g.snapshot c.saveRegs) }, g) := by
  split_ifs with hrest
  · rw [bind_of_ok (keepRemain_ok rfl rfl hlen g), @saveContext_ok _ _ _ csr ?_ ?_ _ (hb _) hd]
    · rfl
    · exact hcsr
    · exact hl
  · obtain rfl : rest = [] := List.length_eq_zero.mp (not_not.mp hrest)
    rw [@saveContext_ok _ _ _ csr ?_ ?_ _ (hb _) hd]
    · rfl
    · exact hcsr
    · exact hl

/-! ### Each call on the stream -/

/-- `stm32_hash_init` with a key it accepts starts the stream: it succeeds and parks a
well-formed session carrying `Stream.start`, with the `HASH_CR` `hw_init` wrote. -/
theorem stm32HashInit_stream {c : Ctx Core} (hc : c.Allocated) {key : List UInt8}
    (hkey : key.length ≠ 0 ∨ c.mode = .hash) (h : Regs Core) :
    ∃ c₁ h₁, stm32HashInit (fifoEngine B H) key (c, h) = some (.ok (), c₁, h₁) ∧ c₁.WF ∧
      c₁.mode = c.mode ∧ c₁.digestU32 = c.digestU32 ∧
      c₁.cr = (hwInitRegs (fifoEngine B H) c key h).cr ∧
      c₁.stream = some (Stream.start c.mode key) := by
  obtain ⟨c₁, h₁, he, -, hm, -, -, hn, hr, -, hcr, hk⟩ := stm32HashInit_fifo B H hc hkey h
  refine ⟨c₁, h₁, he, stm32HashInit_wf fifoEngine_neverBusy hc hkey he, hm, hn, hcr, ?_⟩
  by_cases hmode : c.mode = .hmac <;>
    simp [Ctx.stream, hk, Ctx.pending, hr, Stream.start, Core.input, validBytes_keyWords, hmode]

/-- **An update appends its bytes to the stream**, whichever branch it takes, unless it runs
into undefined behaviour.  It returns success, and keeps the session's mode, its digest length
and the `HASH_CR` `restore_context` writes. -/
theorem stm32HashUpdate_stream {c : Ctx Core} (hc : c.WF) {s : Stream} (hs : c.stream = some s)
    (m : List UInt8) (h : Regs Core) {r : Except TeeResult Unit} {c' : Ctx Core}
    {h' : Regs Core} (hu : stm32HashUpdate (fifoEngine B H) m (c, h) = some (r, c', h')) :
    code r = .success ∧ c'.stream = some (s.push m) ∧ c'.mode = c.mode ∧
      c'.digestU32 = c.digestU32 ∧ c'.cr ||| hashCrInit = c.cr ||| hashCrInit := by
  have hb : (fifoEngine B H).NeverBusy := fifoEngine_neverBusy
  have hB := hc.blockSize_words
  obtain ⟨buf, hbuf, hbl⟩ := hc.remainBuf
  obtain ⟨csr, hcsr, hcl⟩ := hc.csr
  have hr := hc.remainLen
  obtain ⟨k, hk, rfl⟩ := Option.map_eq_some'.mp hs
  have hhead : csr.head? = some k := by simpa [Ctx.savedCore, hcsr] using hk
  rw [Ctx.pending_of hbuf]
  by_cases hm : m.length = 0
  · rw [stm32HashUpdate_of_length_eq_zero _ hm] at hu
    cases hu
    rw [List.length_eq_zero.mp hm, Stream.push_nil, ← Ctx.pending_of hbuf]
    exact ⟨rfl, hs, rfl, rfl, rfl⟩
  by_cases hq : c.remainLen + m.length < c.queueSize
  · -- the buffer-only branch: the bytes go after the pending ones
    have := hc.queueSize
    rw [stm32HashUpdate_of_append _ hcsr hcl.ge hbuf hm hq (by omega) h] at hu
    cases hu
    refine ⟨rfl, ?_, rfl, rfl, rfl⟩
    have hp : (buf.take c.remainLen ++ (m ++ buf.drop (c.remainLen + m.length))).take
        (c.remainLen + m.length) = buf.take c.remainLen ++ m := by
      rw [← List.append_assoc]
      exact List.take_left' (by simp; omega)
    simp [Ctx.stream, Ctx.savedCore, hcsr, hhead, Ctx.pending, Stream.push, hp]
  -- the flush completes the pending bytes' last word from the caller's buffer
  have hfl := flushRemain_eq hb hbuf (by unfold roundup4; omega) m
    (h.restored (fifoEngine B H) c csr)
  split_ifs at hfl with hal
  · rw [stm32HashUpdate_of_flush_none _ hcsr hcl.ge hm (by omega) hfl] at hu
    cases hu
  have ha : roundup4 c.remainLen - c.remainLen ≤ m.length := by unfold roundup4 at hal ⊢; omega
  -- and the FIFO loop writes whole words of what is left, until `DINIS` is set
  rcases fifoLoop_spec hb c.queueSize (m.drop (roundup4 c.remainLen - c.remainLen))
    { c with remainBuf := some (List.replicate (roundup4 c.remainLen) 0 ++
                                  buf.drop (roundup4 c.remainLen)), remainLen := 0 }
    _ with hn | ⟨j, hj, hlt, hd, hloop⟩
  · rw [stm32HashUpdate_of_loop_none _ hcsr hcl.ge hm (by omega) hfl hn] at hu
    cases hu
  rw [stm32HashUpdate_of_blocks _ hcsr hcl.ge hm (by omega) hfl hloop] at hu
  simp only at hu
  have := hc.queueSize
  have hlen : (List.replicate (roundup4 c.remainLen) (0 : UInt8) ++
      buf.drop (roundup4 c.remainLen)).length = c.blockSize + 4 := by
    simp; unfold roundup4; omega
  rw [keepSave_ok hb hcsr hcl _ (by rw [hlen, List.length_drop]; omega) hd] at hu
  cases hu
  refine ⟨rfl, ?_, rfl, rfl, by simp [BitVec.or_assoc]⟩
  have hx :
      (buf.take c.remainLen ++ m.take (roundup4 c.remainLen - c.remainLen)).length % 4 = 0 := by
    simp; unfold roundup4 at ha ⊢; omega
  rw [stream_saved]
  simp only [fifo_feed_core, restored_csr_zero _ _ hhead, Core.input, List.flatMap_append,
    flatMap_bytes_wordsOf_of_mod hx, flatMap_bytes_wordsOf_of_mod (by
      rw [List.length_take, Nat.min_eq_left hj]; omega : ((m.drop
      (roundup4 c.remainLen - c.remainLen)).take (4 * j)).length % 4 = 0), Stream.push,
    List.take_left, List.append_assoc, List.take_append_drop]

/-- **`stm32_hash_final` with a key it accepts returns the digest of the stream**: on a session
that carries a stream it succeeds and stores the digest of the stream's input, under the
session's `HASH_CR` with `INIT` set. -/
theorem stm32HashFinal_stream {c : Ctx Core} (hc : c.WF) {s : Stream} (hs : c.stream = some s)
    {key : List UInt8} (hkey : key.length ≠ 0 ∨ c.mode = .hash) (h : Regs Core) :
    ∃ c' h', stm32HashFinal (fifoEngine B H) key (c, h) = some (.ok
      (fifoDigest H (c.cr ||| hashCrInit) c.digestU32 (s.input c.mode key)), c', h') := by
  obtain ⟨k, hk, rfl⟩ := Option.map_eq_some'.mp hs
  obtain ⟨c₃, h₃, hf, hcr, hin⟩ := stm32HashFinal_fifo B H hc.toAllocated hkey hc.remainLen hk h
  refine ⟨c₃, h₃, ?_⟩
  rw [hf, digestOf_fifoEngine, hcr, hin]
  rfl

theorem Call.outcome_of_code {r : Except TeeResult Unit} (hr : code r = .success) :
    Call.outcome (r.map fun _ => ([] : List UInt8)) = (.success, []) := by
  cases r <;> simp_all [Call.outcome, code, Except.map]

/-- A run of updates on a session that carries a stream: either one of them runs into
undefined behaviour, or each succeeds and the stream grows by their concatenation. -/
theorem runCalls_updates (rest : List Call) : ∀ (ms : List (List UInt8)) {c : Ctx Core}
    {s : Stream} (h : Regs Core), c.WF → c.stream = some s →
    none ∈ (runCalls (fifoEngine B H) (ms.map .update ++ rest) (c, h)).1 ∨
    ∃ c' h', c'.WF ∧ c'.stream = some (s.push ms.flatten) ∧ c'.mode = c.mode ∧
      c'.digestU32 = c.digestU32 ∧ c'.cr ||| hashCrInit = c.cr ||| hashCrInit ∧
      (runCalls (fifoEngine B H) (ms.map .update ++ rest) (c, h)).1 =
        ms.map (fun _ => some (.success, [])) ++ (runCalls (fifoEngine B H) rest (c', h')).1
  | [], c, s, h, hc, hs => .inr ⟨c, h, hc, by simpa using hs, rfl, rfl, rfl, by simp⟩
  | m :: ms, c, s, h, hc, hs => by
    rw [List.map_cons, List.cons_append]
    rcases hx : stm32HashUpdate (fifoEngine B H) m (c, h) with _ | ⟨r, c₁, g⟩
    · refine .inl (by rw [runCalls_cons_none (by rw [Call.run_update, hx]; rfl)]; simp)
    obtain ⟨hr, hs₁, hm₁, hn₁, hcr₁⟩ := stm32HashUpdate_stream hc hs m h hx
    have e : (Call.update m).run (fifoEngine B H) (c, h) = some (r.map fun _ => [], c₁, g) := by
      rw [Call.run_update, hx]; rfl
    rw [runCalls_cons_some e]
    rcases runCalls_updates rest ms g (stm32HashUpdate_wf fifoEngine_neverBusy hc hx) hs₁ with
      hn | ⟨c', h', hc', hs', hm', hn', hcr', he⟩
    · exact .inl (List.mem_cons_of_mem _ hn)
    refine .inr ⟨c', h', hc', by rw [hs', Stream.push_push, List.flatten_cons], hm'.trans hm₁,
      hn'.trans hn₁, hcr'.trans hcr₁, ?_⟩
    rw [he, Call.outcome_of_code hr]
    rfl

/-- **After `stm32_hash_init` with a key it accepts, any updates and `stm32_hash_final` with a
key it accepts, from any engine state, either some call runs into undefined behaviour, or
every call succeeds and `stm32_hash_final` stores the digest, under the `HASH_CR` `hw_init`
wrote, of the key (in HMAC mode), the concatenation of the updates, and the key again (in HMAC
mode).  How the message is cut into updates changes nothing else.** -/
theorem hash_of_updates {c : Ctx Core} (hc : c.Allocated) {key key' : List UInt8}
    (hkey : key.length ≠ 0 ∨ c.mode = .hash) (hkey' : key'.length ≠ 0 ∨ c.mode = .hash)
    (ms : List (List UInt8)) (h : Regs Core) :
    none ∈ (runCalls (fifoEngine B H) (.init key :: (ms.map .update ++ [.final key'])) (c, h)).1 ∨
    (runCalls (fifoEngine B H) (.init key :: (ms.map .update ++ [.final key'])) (c, h)).1 =
      some (.success, []) :: (ms.map (fun _ => some (.success, [])) ++
        [some (.success, fifoDigest H ((hwInitRegs (fifoEngine B H) c key h).cr ||| hashCrInit)
          c.digestU32 (((Stream.start c.mode key).push ms.flatten).input c.mode key'))]) := by
  obtain ⟨c₁, h₁, hi, hw₁, hm₁, hn₁, hcr₁, hs₁⟩ := stm32HashInit_stream hc hkey h
  have e₁ : (Call.init key).run (fifoEngine B H) (c, h) = some (.ok [], c₁, h₁) := by
    rw [Call.run_init, hi]; rfl
  rw [runCalls_cons_some e₁]
  rcases runCalls_updates [.final key'] ms h₁ hw₁ hs₁ with
    hn | ⟨c', h', hw', hs', hm', hn', hcr', he⟩
  · exact .inl (List.mem_cons_of_mem _ hn)
  obtain ⟨c₃, h₃, hf⟩ := stm32HashFinal_stream hw' hs' (by rwa [hm', hm₁]) h'
  have e : (Call.final key').run (fifoEngine B H) (c', h') = some (.ok
      (fifoDigest H (c'.cr ||| hashCrInit) c'.digestU32 ((Stream.start c.mode key).push
        ms.flatten |>.input c'.mode key')), c₃, h₃) := hf
  rw [he, runCalls_cons_some e, hcr', hcr₁, hn', hn₁, hm', hm₁]
  simp [runCalls, Call.outcome]

/-! ### Sessions sharing the device

Isolation and the abstract session put together: whatever the other sessions do between its
calls, a session that runs `stm32_hash_init`, updates and `stm32_hash_final` gets the digest of
its own message, unless some call of some session ran into undefined behaviour. -/

/-- Two SHA-256 sessions: session 1 hashes two updates while session 0 hashes one between
them. -/
def twoMessages : List (Nat × Call) :=
  [(1, .init []), (1, .update [1, 2]), (0, .init []), (0, .update [9]), (1, .update [3]),
    (0, .final []), (1, .final [])]

end Stm32Hash
