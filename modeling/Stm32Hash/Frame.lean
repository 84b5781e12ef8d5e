/-
What no call changes, whatever the engine does.

`stm32_hash_alloc` fixes a session's configuration: the engine's capabilities, the mode and
the algorithm, and the sizes it chose for them (`Config`).  Every block of the driver writes
the pending buffer, the queue size and the saved registers, and nothing else of the session.
`Drv.Keeps` says that of a block, from any engine state and whatever the block returns; it is
closed under `>>=`, and a block that reads the session (`getCtx`) and writes back an update
of what it read keeps it too.  So each block keeps the configuration because its parts do,
and so does every call (`Call.run_keeps`) and every run of calls (`runCalls_config`).
-/
import Stm32Hash.Session

namespace Stm32Hash

open Drv

variable {V : Type} {α β : Type}

/-! ### Blocks that keep the configuration -/

namespace Drv

/-- The block `x` leaves a session of configuration `n` with configuration `n`, from any
engine state and whatever it returns. -/
def Keeps (n : Config) (x : Drv V α) : Prop :=
  ∀ s r s', s.1.config = n → x s = some (r, s') → s'.1.config = n

variable {n : Config}

/-- A block that leaves the session alone. -/
theorem Keeps.of_ctx {x : Drv V α} (hx : ∀ s r s', x s = some (r, s') → s'.1 = s.1) :
    Keeps n x :=
  fun s r s' hs he => (hx s r s' he) ▸ hs

theorem Keeps.pure (a : α) : Keeps n (Pure.pure a : Drv V α) :=
  Keeps.of_ctx fun _ _ _ he => by cases he; rfl

theorem Keeps.bind {x : Drv V α} {f : α → Drv V β} (hx : Keeps n x) (hf : ∀ a, Keeps n (f a)) :
    Keeps n (x >>= f) := by
  intro s r s' hs he
  rw [bind_apply] at he
  rcases h : x s with _ | ⟨_ | a, s₁⟩ <;> rw [h] at he
  · cases he
  · cases he
    exact hx s _ _ hs h
  · exact hf a s₁ r s' (hx s _ _ hs h) he

/-- What a block reads of the session has the session's configuration. -/
theorem Keeps.getCtx_bind {f : Ctx V → Drv V β} (hf : ∀ c, c.config = n → Keeps n (f c)) :
    Keeps n (getCtx >>= f) :=
  fun s r s' hs he => hf s.1 hs s r s' hs (by simpa using he)

theorem Keeps.getRegs : Keeps n (getRegs : Drv V (Regs V)) :=
  Keeps.of_ctx fun _ _ _ he => by cases he; rfl

theorem Keeps.io (f : Regs V → Regs V) : Keeps n (io f) :=
  Keeps.of_ctx fun _ _ _ he => by cases he; rfl

theorem Keeps.exit (e : TeeResult) : Keeps n (exit e : Drv V α) :=
  Keeps.of_ctx fun _ _ _ hx => by cases hx; rfl

theorem Keeps.fault : Keeps n (fault : Drv V α) :=
  Keeps.of_ctx fun _ _ _ he => by cases he

theorem Keeps.lift (o : Option α) : Keeps n (lift o : Drv V α) :=
  Keeps.of_ctx fun _ _ _ he => by cases o <;> cases he; rfl

theorem Keeps.setCtx {c : Ctx V} (hc : c.config = n) : Keeps n (setCtx c) :=
  fun _ _ _ _ he => by cases he; exact hc

theorem Keeps.modifyCtx {f : Ctx V → Ctx V} (hf : ∀ c, (f c).config = c.config) :
    Keeps n (modifyCtx f) :=
  fun _ _ _ hs he => by cases he; exact (hf _).trans hs

theorem Keeps.ite {p : Prop} [Decidable p] {x y : Drv V β} (hx : Keeps n x) (hy : Keeps n y) :
    Keeps n (if p then x else y) := by
  split
  · exact hx
  · exact hy

/-- A statement `if p then x` in a `do` block: whichever branch runs, the rest of the block
follows it. -/
theorem Keeps.ite_bind {p : Prop} [Decidable p] {x y : Drv V PUnit} {f : PUnit → Drv V β}
    (hx : Keeps n x) (hy : Keeps n y) (hf : ∀ u, Keeps n (f u)) :
    Keeps n (if p then x >>= f else y >>= f) :=
  Keeps.ite (Keeps.bind hx hf) (Keeps.bind hy hf)

theorem Keeps.forRange {body : Nat → Drv V Unit} (hb : ∀ i, Keeps n (body i)) :
    ∀ m, Keeps n (forRange m body)
  | 0 => Keeps.pure _
  | m + 1 => Keeps.bind (Keeps.forRange hb m) fun _ => hb m

theorem Keeps.readSr (E : Engine V) : Keeps n (readSr E) :=
  Keeps.of_ctx fun _ _ _ he => by cases he; rfl

theorem Keeps.waitEndBusy (E : Engine V) : Keeps n (waitEndBusy E) :=
  Keeps.of_ctx fun s r s' he => by
    rw [waitEndBusy_apply] at he
    split at he <;> cases he <;> rfl

end Drv

/-! ### The driver's blocks

Each block keeps the configuration because its parts do: the proofs follow the blocks' code,
one rule per statement.
-/

section Blocks

variable {n : Config} (E : Engine V)

theorem hashWriteData_keeps (w : Word) : Keeps n (hashWriteData E w) :=
  Keeps.bind (Keeps.io _) fun _ => Keeps.waitEndBusy E

theorem remainWord_keeps (i : Nat) : Keeps n (remainWord i : Drv V Word) :=
  Keeps.getCtx_bind fun _ _ => by
    split
    · exact Keeps.lift _
    · exact Keeps.fault

theorem zeroRemainWord_keeps (i : Nat) : Keeps n (zeroRemainWord i : Drv V Unit) :=
  Keeps.getCtx_bind fun _ hc => by
    split
    · exact Keeps.bind (Keeps.lift _) fun _ => Keeps.setCtx hc
    · exact Keeps.fault

theorem flushWords_keeps (m : Nat) : Keeps n (flushWords E m) :=
  Keeps.forRange (fun i => Keeps.bind (remainWord_keeps i) fun w =>
    Keeps.bind (hashWriteData_keeps E w) fun _ => zeroRemainWord_keeps i) m

theorem writeKey_keeps (key : List UInt8) : Keeps n (writeKey E key) := by
  unfold writeKey
  refine Keeps.bind (Keeps.io _) fun _ => Keeps.bind (Keeps.forRange (fun _ =>
    Keeps.bind (Keeps.lift _) fun w => hashWriteData_keeps E w) _) fun _ => ?_
  split
  · exact Keeps.bind (hashWriteData_keeps E _) fun _ => Keeps.io _
  · exact Keeps.bind (Keeps.pure _) fun _ => Keeps.io _

theorem hwInit_keeps (key : List UInt8) : Keeps n (hwInit E key) :=
  Keeps.getCtx_bind fun _ _ => by
    split
    · exact Keeps.bind (Keeps.io _) fun _ => writeKey_keeps E key
    · exact Keeps.io _

theorem saveContext_keeps : Keeps n (saveContext E) := by
  refine Keeps.bind (Keeps.waitEndBusy E) fun _ => Keeps.bind (Keeps.readSr E) fun _ =>
    Keeps.ite_bind (Keeps.exit _) (Keeps.pure _) fun _ => Keeps.bind Keeps.getRegs fun _ =>
      Keeps.bind (Keeps.modifyCtx fun _ => rfl) fun _ => Keeps.getCtx_bind fun _ hc => ?_
  split
  · exact Keeps.bind (Keeps.lift _) fun _ => Keeps.bind (Keeps.lift _) fun _ => Keeps.setCtx hc
  · exact Keeps.exit _

theorem restoreContext_keeps : Keeps n (restoreContext E) := by
  refine Keeps.getCtx_bind fun _ _ => Keeps.bind (Keeps.io _) fun _ => Keeps.bind (Keeps.io _)
    fun _ => Keeps.bind (Keeps.io _) fun _ => ?_
  split
  · exact Keeps.bind Keeps.getRegs fun _ => Keeps.bind (Keeps.lift _) fun _ =>
      Keeps.bind (Keeps.lift _) fun _ => Keeps.io _
  · exact Keeps.exit _

theorem appendRemain_keeps (b : List UInt8) : Keeps n (appendRemain b : Drv V Unit) := by
  refine Keeps.getCtx_bind fun _ hc => ?_
  split
  · exact Keeps.bind (Keeps.lift _) fun _ => Keeps.setCtx hc
  · exact Keeps.exit _

theorem flushRemain_keeps (b : List UInt8) : Keeps n (flushRemain E b) := by
  refine Keeps.getCtx_bind fun _ hc =>
    Keeps.ite (Keeps.pure _) (Keeps.bind (Keeps.pure _) fun _ => ?_)
  split
  · exact Keeps.bind (Keeps.lift _) fun _ => Keeps.bind (Keeps.lift _) fun _ =>
      Keeps.bind (Keeps.setCtx hc) fun _ => Keeps.bind (flushWords_keeps E _) fun _ =>
        Keeps.bind (Keeps.modifyCtx fun _ => rfl) fun _ => Keeps.pure _
  · exact Keeps.exit _

theorem keepRemain_keeps (b : List UInt8) : Keeps n (keepRemain b : Drv V Unit) := by
  refine Keeps.getCtx_bind fun _ hc => Keeps.ite_bind Keeps.fault (Keeps.pure _) fun _ => ?_
  split
  · exact Keeps.bind (Keeps.lift _) fun _ => Keeps.setCtx hc
  · exact Keeps.exit _

theorem waitDigestReady_keeps : Keeps n (waitDigestReady E) :=
  Keeps.bind (Keeps.readSr E) fun _ => by
    split
    · exact Keeps.exit _
    · exact Keeps.pure _

theorem hashGetDigest_keeps : Keeps n (hashGetDigest E) :=
  Keeps.bind (waitDigestReady_keeps E) fun _ => Keeps.getCtx_bind fun _ _ =>
    Keeps.bind Keeps.getRegs fun _ => Keeps.pure _

theorem fifoWanted_keeps (q len : Nat) : Keeps n (fifoWanted E q len) := by
  unfold fifoWanted
  dsimp only
  split
  · exact Keeps.pure _
  · exact Keeps.bind (Keeps.pure _) fun _ => Keeps.bind (Keeps.readSr E) fun _ => Keeps.pure _

theorem fifoLoop_keeps (q : Nat) (buffer : List UInt8) : Keeps n (fifoLoop E q buffer) := by
  induction buffer using wordsOf.induct with
  | case1 b0 b1 b2 b3 rest ih =>
    rw [fifoLoop.eq_def]
    refine Keeps.bind (fifoWanted_keeps E _ _) fun _ => ?_
    split
    · exact Keeps.bind (hashWriteData_keeps E _) fun _ => ih
    · exact Keeps.pure _
  | case2 bs hbs =>
    rw [fifoLoop.eq_def]
    refine Keeps.bind (fifoWanted_keeps E _ _) fun _ => ?_
    split
    · split
      · exact absurd rfl (hbs _ _ _ _ _)
      · exact Keeps.fault
    · exact Keeps.pure _

end Blocks

/-! ### The calls -/

section Calls

variable {n : Config} (E : Engine V)

/-- The three calls keep the configuration.  The proof unfolds them and applies to each
statement the rule for it, or the lemma for the block it runs. -/
theorem calls_keep (key m key' : List UInt8) :
    Keeps n (stm32HashInit E key) ∧ Keeps n (stm32HashUpdate E m) ∧
      Keeps n (stm32HashFinal E key') := by
  refine ⟨?_, ?_, ?_⟩ <;>
    simp only [stm32HashInit, stm32HashUpdate, stm32HashFinal] <;>
    repeat' first
      | with_reducible refine Keeps.getCtx_bind fun _ _ => ?_
      | with_reducible refine Keeps.bind ?_ fun _ => ?_
      | with_reducible exact Keeps.pure _ | with_reducible exact Keeps.exit _
      | with_reducible exact Keeps.fault | with_reducible exact Keeps.lift _
      | with_reducible exact Keeps.io _
      | exact Keeps.setCtx ‹_› | exact Keeps.modifyCtx fun _ => rfl
      | with_reducible exact hwInit_keeps E _
      | with_reducible exact saveContext_keeps E
      | with_reducible exact restoreContext_keeps E
      | with_reducible exact appendRemain_keeps _
      | with_reducible exact flushRemain_keeps E _
      | with_reducible exact fifoLoop_keeps E _ _
      | with_reducible exact keepRemain_keeps _
      | with_reducible exact flushWords_keeps E _
      | with_reducible exact writeKey_keeps E _
      | with_reducible exact hashGetDigest_keeps E
      | split

/-- No call changes the session's configuration, on any engine and whatever it returns. -/
theorem Call.run_keeps (k : Call) : Keeps n (k.run E) := by
  cases k with
  | init key => exact Keeps.bind (calls_keep E key [] []).1 fun _ => Keeps.pure _
  | update m => exact Keeps.bind (calls_keep E [] m []).2.1 fun _ => Keeps.pure _
  | final key => exact (calls_keep E [] [] key).2.2

end Calls

/-- A call keeps the session's configuration. -/
theorem Call.run_config {E : Engine V} {k : Call} {c c' : Ctx V} {h h' : Regs V}
    {r : Except TeeResult (List UInt8)} (hk : k.run E (c, h) = some (r, c', h')) :
    c'.config = c.config :=
  Call.run_keeps E k (c, h) r (c', h') rfl hk

/-- Every run of calls leaves the session with the configuration it started with, on any
engine, whatever each call returns. -/
theorem runCalls_config (E : Engine V) (ks : List Call) {c : Ctx V} (h : Regs V) {c' : Ctx V}
    {h' : Regs V} (he : (runCalls E ks (c, h)).2 = some (c', h')) : c'.config = c.config :=
  @runCalls_inv _ E (fun d => d.config = c.config)
    (fun _ _ _ _ _ _ hd hk => (Call.run_config hk).trans hd) ks _ _ _ _ rfl he

end Stm32Hash
