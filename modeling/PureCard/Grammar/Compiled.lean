/-
PureCard.Grammar.Compiled — the vocabulary and the lazy per-state token
masks (`src/vocab.rs`, `src/grammar/compiled.rs`).

A `CompiledGrammar` is a vocabulary with one cache entry per automaton
state, filled on first visit. The source fills it through a shared
reference, so at any time an entry may be empty or hold what `build`
computes for its state; `filled` says that nothing else can be in there.
`cached` returns the grammar with the entry filled next to the entry.

`vocab.len() as u32` keeps the low 32 bits: that number, `eosBit`, is the
EOS id, and the token ids a mask speaks about are the ids below it.
-/
import PureCard.Grammar.Probing
import PureCard.Mask

namespace PureCard

/-- An id-indexed token byte table with the declared EOS id. -/
structure Vocab where
  tokens : List Bytes
  eos : Nat
  deriving DecidableEq

namespace Vocab

def bytes (v : Vocab) (id : Nat) : Option Bytes := v.tokens[id]?

def len (v : Vocab) : Nat := v.tokens.length

/-- `vocab.bytes(id).unwrap_or(&[])`. -/
def bytesOrEmpty (v : Vocab) (id : Nat) : Bytes := (v.bytes id).getD []

/-- The reserved EOS bit: `vocab.len() as u32`. -/
def eosBit (v : Vocab) : Nat := v.len % UInt32.size

/-- The EOS-inclusive mask length. -/
def maskLen (v : Vocab) : Nat := v.eosBit + 1

theorem eosBit_le_len (v : Vocab) : v.eosBit ≤ v.len := Nat.mod_le _ _

theorem eosBit_eq_len {v : Vocab} (h : v.len < UInt32.size) : v.eosBit = v.len := Nat.mod_eq_of_lt h

/-- Every id a mask speaks about has an entry in the table. -/
theorem bytes_of_lt {v : Vocab} {id : Nat} (h : id < v.eosBit) :
    v.bytes id = some (v.bytesOrEmpty id) := by
  have hlen : id < v.tokens.length := Nat.lt_of_lt_of_le h v.eosBit_le_len
  simp [bytesOrEmpty, bytes, hlen]

/-- `t` is the byte string of a token the masks speak about. -/
def Has (v : Vocab) (t : Bytes) : Prop := ∃ id < v.eosBit, v.bytes id = some t

end Vocab

/-! ## One state's partition -/

/-- A single state's memoized vocabulary partition. -/
structure Cached where
  indep : BitMask
  deferred : List Nat
  deriving DecidableEq

/-- What the partition keeps: alive without having consulted the stack. -/
def Probe.survives (p : Probe) : Bool := !p.consultedAmbient && p.alive

/-- One round of the partition loop. -/
def buildToken (state : State) (vocab : Vocab) (c : Cached) (id : Nat) : Cached :=
  let probe := (Pda.pinned state).probe (vocab.bytesOrEmpty id)
  if probe.consultedAmbient then { c with deferred := c.deferred ++ [id] }
  else if probe.alive then { c with indep := c.indep.set id }
  else c

/-- A state's partition: every token probed from the state over an EMPTY
stack. -/
def build (state : State) (vocab : Vocab) (maskLen : Nat) : Cached :=
  (List.range vocab.eosBit).foldl (buildToken state vocab) ⟨.withLen maskLen, []⟩

/-! ## The lazy cache -/

/-- A vocabulary and its lazy per-state cache. -/
structure CompiledGrammar where
  vocab : Vocab
  cache : List (Option Cached)
  cache_len : cache.length = State.count
  filled : ∀ (s : State) (c : Cached),
    cache[s.index]? = some (some c) → c = build s vocab vocab.maskLen

namespace CompiledGrammar

/-- `CompiledGrammar::compile`: no state visited yet. -/
def compile (vocab : Vocab) : CompiledGrammar where
  vocab := vocab
  cache := List.replicate State.count none
  cache_len := by simp
  filled s c h := by simp [List.getElem?_replicate] at h

def eosBit (g : CompiledGrammar) : Nat := g.vocab.eosBit

def maskLen (g : CompiledGrammar) : Nat := g.eosBit + 1

/-- Fill the entry of `state` (`OnceCell::get_or_init` on an empty cell). -/
def fill (g : CompiledGrammar) (state : State) : CompiledGrammar where
  vocab := g.vocab
  cache := g.cache.set state.index (some (build state g.vocab g.maskLen))
  cache_len := by rw [List.length_set, g.cache_len]
  filled s c h := by
    rw [List.getElem?_set] at h
    by_cases hs : state.index = s.index
    · rw [if_pos hs, if_pos (by rw [g.cache_len]; exact state.index_lt_count)] at h
      rw [State.index_injective hs] at h
      exact (Option.some.inj (Option.some.inj h)).symm
    · rw [if_neg hs] at h
      exact g.filled s c h

/-- The partition of `state`, built on first access. -/
def cached (g : CompiledGrammar) (state : State) : CompiledGrammar × Cached :=
  match g.cache[state.index]? with
  | some (some c) => (g, c)
  | _ => (g.fill state, build state g.vocab g.maskLen)

@[simp] theorem vocab_fill (g : CompiledGrammar) (state : State) : (g.fill state).vocab = g.vocab :=
  rfl

@[simp] theorem vocab_cached (g : CompiledGrammar) (state : State) :
    (g.cached state).1.vocab = g.vocab := by
  unfold cached
  split <;> rfl

/-- Whatever has been visited before, the entry handed out is the one
`build` computes. -/
theorem cached_snd (g : CompiledGrammar) (state : State) :
    (g.cached state).2 = build state g.vocab g.vocab.maskLen := by
  unfold cached
  split
  · exact g.filled state _ ‹_›
  · rfl

end CompiledGrammar

/-! ## What the partition says of a token -/

theorem foldl_buildToken_indep (state : State) (vocab : Vocab) (ids : List Nat) (c : Cached) :
    (ids.foldl (buildToken state vocab) c).indep = ids.foldl (fun m id =>
      if ((Pda.pinned state).probe (vocab.bytesOrEmpty id)).survives then m.set id else m)
      c.indep := by
  induction ids generalizing c with
  | nil => rfl
  | cons id ids ih =>
    rw [List.foldl_cons, List.foldl_cons, ih]
    congr 1
    unfold buildToken Probe.survives
    cases hc : ((Pda.pinned state).probe (vocab.bytesOrEmpty id)).consultedAmbient <;>
      cases ha : ((Pda.pinned state).probe (vocab.bytesOrEmpty id)).alive <;> simp [hc, ha]

theorem foldl_buildToken_deferred (state : State) (vocab : Vocab) (ids : List Nat) (c : Cached) :
    (ids.foldl (buildToken state vocab) c).deferred = c.deferred ++ ids.filter fun id =>
      ((Pda.pinned state).probe (vocab.bytesOrEmpty id)).consultedAmbient := by
  induction ids generalizing c with
  | nil => simp
  | cons id ids ih =>
    rw [List.foldl_cons, ih]
    unfold buildToken
    cases hc : ((Pda.pinned state).probe (vocab.bytesOrEmpty id)).consultedAmbient with
    | true => simp [hc]
    | false =>
      cases ha : ((Pda.pinned state).probe (vocab.bytesOrEmpty id)).alive <;> simp [hc, ha]

@[simp] theorem len_build (state : State) (vocab : Vocab) (maskLen : Nat) :
    (build state vocab maskLen).indep.len = maskLen := by
  rw [build, foldl_buildToken_indep, BitMask.len_foldl_set]
  rfl

/-- The survivors of a partition. -/
theorem test_build (state : State) (vocab : Vocab) {maskLen id : Nat} (h : vocab.eosBit < maskLen) :
    (build state vocab maskLen).indep.test id =
      (decide (id < vocab.eosBit) &&
        ((Pda.pinned state).probe (vocab.bytesOrEmpty id)).survives) := by
  rw [build, foldl_buildToken_indep, BitMask.test_foldl_set]
  simp only [BitMask.test_withLen, BitMask.len_withLen, Bool.false_or, List.mem_range]
  by_cases hid : id < vocab.eosBit
  · simp [hid, Nat.lt_trans hid h]
  · simp [hid]

/-- The deferred tokens of a partition. -/
theorem mem_deferred_build (state : State) (vocab : Vocab) (maskLen id : Nat) :
    id ∈ (build state vocab maskLen).deferred ↔ id < vocab.eosBit ∧
      ((Pda.pinned state).probe (vocab.bytesOrEmpty id)).consultedAmbient = true := by
  rw [build, foldl_buildToken_deferred, List.nil_append, List.mem_filter, List.mem_range]

/-! ## Probing over the empty stack -/

theorem above_pinned (s : State) (stack : List Frame) :
    (Pda.pinned s).above stack = ⟨s, stack⟩ := rfl

/-- A context-independent survivor lives over every stack. -/
theorem admits_of_alive {s : State} {w : Bytes} (h : ((Pda.pinned s).probe w).alive = true)
    (stack : List Frame) : (Pda.mk s stack).admits w = true := by
  obtain ⟨q, hq⟩ := Pda.probe_alive_iff.mp h
  rw [← above_pinned]
  exact Pda.admits_iff.mpr ⟨q.above stack, Pda.advanceAll_above hq stack⟩

/-- A token dropped at build time lives over no stack. -/
theorem not_admits_of_dropped {s : State} {w : Bytes}
    (halive : ((Pda.pinned s).probe w).alive = false)
    (hctx : ((Pda.pinned s).probe w).consultedAmbient = false) (stack : List Frame) :
    (Pda.mk s stack).admits w = false := by
  obtain ⟨u, b, v, q, rfl, -, -, hiff⟩ := Pda.probe_dead halive
  rw [← above_pinned, ← Bool.not_eq_true, Pda.admits_iff]
  rintro ⟨r, hr⟩
  rw [List.append_cons] at hr
  obtain ⟨r', hr', -⟩ := Pda.advanceAll_append.mp hr
  rw [hiff.mpr ⟨stack, r', hr'⟩] at hctx
  cases hctx

/-- A deferred token is dead over the empty stack. -/
theorem not_admits_of_consultedAmbient {s : State} {w : Bytes}
    (hctx : ((Pda.pinned s).probe w).consultedAmbient = true) : (Pda.pinned s).admits w = false := by
  rw [← Bool.not_eq_true, ← Pda.alive_eq_admits]
  intro halive
  rw [Pda.not_consulted_of_alive halive] at hctx
  cases hctx

/-- **The partition is exact**: over any stack, the tokens that live are
the survivors and those deferred tokens that the stack itself admits. -/
theorem admits_iff_survives_or (s : State) (stack : List Frame) (w : Bytes) :
    (Pda.mk s stack).admits w = true ↔
      ((Pda.pinned s).probe w).survives = true ∨
      (((Pda.pinned s).probe w).consultedAmbient = true ∧ (Pda.mk s stack).admits w = true) := by
  constructor
  · intro h
    cases hctx : ((Pda.pinned s).probe w).consultedAmbient with
    | true => exact .inr ⟨rfl, h⟩
    | false =>
      cases halive : ((Pda.pinned s).probe w).alive with
      | true => exact .inl (by simp [Probe.survives, hctx, halive])
      | false =>
        rw [not_admits_of_dropped halive hctx stack] at h
        cases h
  · rintro (h | h)
    · exact admits_of_alive (by simp [Probe.survives] at h; exact h.2) stack
    · exact h.2

end PureCard
