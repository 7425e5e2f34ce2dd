/-
PureCard.MaskPacking — the mask as the bytes the host reads
(`src/mask.rs` `pack_le_bytes_into`, `src/ffi.rs` `Session::allowed_mask`).

The loop writes every byte of every word through a bounds check, into a
buffer that was just refilled with zeros. That is the bytes of the words,
clipped to the packed length, whatever the buffer held (`packed_eq`), so
its bits are the bits of the words (`bitAt_packed`).

The last byte may reach past the length of the mask, and the check does
not clip within a byte: what the host finds there is padding of the last
word. It is zero in a mask built by the operations, where the masks that
are combined share a length (`RawMask.Built.tight`).

`HostSession` is the session the host holds. It reuses one buffer, and
what it returns is the allowed set of the session at that point of the run
(`HostSession.recovers`).
-/
import PureCard.Lib.LittleEndian
import PureCard.MaskRuns
import PureCard.OpeningTokens

namespace PureCard

open LittleEndian

/-- `Vec::resize`. -/
def resize (buf : Bytes) (n : Nat) (value : UInt8) : Bytes :=
  buf.take n ++ List.replicate (n - buf.length) value

/-- `buf.clear()` truncates to no byte. The products below stay under the
bytes that the words take in memory, so `usize` holds them. -/
def RawMask.packLeBytesInto (m : RawMask) (buf : Bytes) : Bytes :=
  let byteLen := (m.len + 7) / 8
  let buf := buf.take 0
  let buf := resize buf byteLen 0
  m.words.zipIdx.foldl (fun buf (word, wordIdx) =>
    let base := wordIdx * 8
    (toBytes 8 word).zipIdx.foldl (fun buf (byte, offset) => writeAt buf (base + offset) byte) buf)
    buf

/-! ## The bits of a packed mask -/

namespace BitMask

theorem packed_eq (m : BitMask) (buf : Bytes) :
    m.raw.packLeBytesInto buf = (m.words.flatMap (toBytes 8)).take ((m.len + 7) / 8) := by
  have hfill : resize (buf.take 0) ((m.len + 7) / 8) 0 =
      List.replicate ((m.len + 7) / 8) 0 := by
    simp [resize]
  have hloop : m.raw.packLeBytesInto buf =
      writeWords 8 (resize (buf.take 0) ((m.len + 7) / 8) 0) 0 m.words := rfl
  have hfits : (m.len + 7) / 8 ≤ (m.words.flatMap (toBytes 8)).length := by
    have hwords : m.words.length = (m.len + 63) / 64 := m.words_len
    rw [length_flatMap_toBytes, hwords]
    omega
  rw [hloop, hfill, writeWords_eq, Nat.zero_mul, writeAll_zero]
  · rw [List.length_replicate]
  · rwa [List.length_replicate]

theorem length_packed (m : BitMask) (buf : Bytes) :
    (m.raw.packLeBytesInto buf).length = (m.len + 7) / 8 := by
  have hwords : m.words.length = (m.len + 63) / 64 := m.words_len
  rw [packed_eq, List.length_take, length_flatMap_toBytes, hwords]
  omega

/-- A packed bit is the bit of the words, clipped to whole bytes. -/
theorem bitAt_packed (m : BitMask) (buf : Bytes) (k : Nat) :
    bitAt (m.raw.packLeBytesInto buf) k =
      (decide (k < 8 * ((m.len + 7) / 8)) && m.bit k) := by
  rw [packed_eq, bitAt_take, bitAt_flatMap_toBytes rfl]
  rfl

/-- No bit of the words is set at or beyond the length. -/
def Clipped (m : BitMask) : Prop := ∀ k, m.len ≤ k → m.bit k = false

theorem Tight.clipped {m : BitMask} (h : m.Tight) : m.Clipped := fun k hk => h k (.inl hk)

theorem Clipped.bitAt_packed {m : BitMask} (h : m.Clipped) (buf : Bytes) (k : Nat) :
    bitAt (m.raw.packLeBytesInto buf) k = m.test k := by
  rw [BitMask.bitAt_packed, test_eq]
  by_cases hk : k < m.len
  · have hbyte : k < 8 * ((m.len + 7) / 8) := by omega
    simp [hk, hbyte]
  · rw [h k (Nat.le_of_not_lt hk)]
    simp

/-! ## Masks without padding bits -/

theorem clipped_withLen (n : Nat) : (withLen n).Clipped := (tight_withLen n).clipped

theorem Clipped.set {m : BitMask} (h : m.Clipped) (id : Nat) : (m.set id).Clipped := by
  intro k hk
  rw [len_set] at hk
  rw [bit_set, h k hk]
  by_cases hid : id < m.len
  · have hne : k ≠ id := by omega
    simp [hne]
  · simp [hid]

theorem Clipped.clear {m : BitMask} (h : m.Clipped) (id : Nat) : (m.clear id).Clipped := by
  intro k hk
  rw [len_clear] at hk
  simp [h k hk]

theorem Clipped.intersect {m : BitMask} (h : m.Clipped) (n : BitMask) :
    (m.intersect n).Clipped := by
  intro k hk
  rw [len_intersect] at hk
  simp [bit_intersect, h k hk]

theorem Clipped.foldl_set {m : BitMask} (h : m.Clipped) (p : Nat → Bool) (ids : List Nat) :
    (ids.foldl (fun m id => if p id then m.set id else m) m).Clipped := by
  induction ids generalizing m with
  | nil => exact h
  | cons id ids ih =>
    rw [List.foldl_cons]
    cases hp : p id with
    | true =>
      simp only [if_true]
      exact ih (h.set id)
    | false => exact ih h

end BitMask

/-! ## What the operations build -/

/-- The masks that the public operations build when the masks they combine
share a length. -/
inductive RawMask.Built : RawMask → Prop where
  | withLen (len : Nat) : Built (.withLen len)
  | set {m m' : RawMask} (id : UInt32) (hm : Built m) (h : m.set id = some m') : Built m'
  | clear {m m' : RawMask} (id : UInt32) (hm : Built m) (h : m.clear id = some m') : Built m'
  | clearAll {m : RawMask} (hm : Built m) : Built m.clearAll
  | intersect {m other : RawMask} (hm : Built m) (ho : Built other) (hlen : other.len = m.len) :
      Built (m.intersect other)
  | copyFrom {m other : RawMask} (hm : Built m) (ho : Built other) (hlen : other.len = m.len) :
      Built (m.copyFrom other)

/-- A mask that was built has as many words as its length asks for, and
nothing in the padding. -/
theorem RawMask.Built.tight {m : RawMask} (h : m.Built) :
    ∃ b : BitMask, b.raw = m ∧ b.Tight := by
  induction h with
  | withLen len => exact ⟨.withLen len, rfl, BitMask.tight_withLen len⟩
  | set id _ h ih =>
    obtain ⟨b, rfl, hb⟩ := ih
    rw [BitMask.raw_set, Option.some.injEq] at h
    exact ⟨b.set id.toNat, h, hb.set id⟩
  | clear id _ h ih =>
    obtain ⟨b, rfl, hb⟩ := ih
    rw [BitMask.raw_clear, Option.some.injEq] at h
    exact ⟨b.clear id.toNat, h, hb.clear id.toNat⟩
  | clearAll _ ih =>
    obtain ⟨b, rfl, -⟩ := ih
    exact ⟨b.clearAll, rfl, b.tight_clearAll⟩
  | intersect _ _ _ ih _ =>
    obtain ⟨b, rfl, hb⟩ := ih
    obtain ⟨c, rfl, -⟩ := ‹∃ c : BitMask, c.raw = _ ∧ c.Tight›
    exact ⟨b.intersect c, rfl, hb.intersect c⟩
  | copyFrom _ _ hlen ih iho =>
    obtain ⟨b, rfl, -⟩ := ih
    obtain ⟨c, rfl, hc⟩ := iho
    refine ⟨b.copyFrom c, rfl, ?_⟩
    rwa [BitMask.copyFrom_eq hlen]

/-- **What the host unpacks is the mask.** Every bit of the packed bytes
is the test of its id, none is set past the length, the number the bytes
spell has exactly the ids of the mask as its bits, and nothing of the
buffer's earlier content is left. -/
theorem packed_exact {m : RawMask} (h : m.Built) (buf : Bytes) :
    (m.packLeBytesInto buf).length = (m.len + 7) / 8 ∧
    (∀ id : UInt32, id.toNat < m.len →
      m.test id = some (bitAt (m.packLeBytesInto buf) id.toNat)) ∧
    (∀ k, m.len ≤ k → bitAt (m.packLeBytesInto buf) k = false) ∧
    (∀ k, (ofBytes (m.packLeBytesInto buf)).testBit k = true ↔
      ∃ id : UInt32, id.toNat = k ∧ m.test id = some true) ∧
    ∀ buf', m.packLeBytesInto buf' = m.packLeBytesInto buf := by
  obtain ⟨b, rfl, hb⟩ := h.tight
  refine ⟨b.length_packed buf, ?_, ?_, ?_, ?_⟩
  · intro id _
    rw [BitMask.raw_test, hb.clipped.bitAt_packed]
  · intro k hk
    rw [hb.clipped.bitAt_packed, BitMask.test_of_len_le hk]
  · intro k
    rw [testBit_ofBytes, hb.clipped.bitAt_packed]
    constructor
    · intro hset
      have hlt : k < 2 ^ 32 := by
        by_contra hout
        rw [BitMask.test_eq, hb k (.inr (Nat.le_of_not_lt hout))] at hset
        simp at hset
      have hround : (UInt32.ofNat k).toNat = k := by
        rw [UInt32.toNat_ofNat']
        exact Nat.mod_eq_of_lt hlt
      exact ⟨UInt32.ofNat k, hround, by rw [BitMask.raw_test, hround, hset]⟩
    · rintro ⟨id, rfl, hid⟩
      rwa [BitMask.raw_test, Option.some.injEq] at hid
  · intro buf'
    rw [BitMask.packed_eq, BitMask.packed_eq]

/-- Ten ids, the last one the EOS bit, over a buffer with an old mask in
it. -/
theorem packed_exact_ten :
    (RawMask.mk [0x202#64] 10).packLeBytesInto [0xff, 0xff, 0xff] = [0x02, 0x02] ∧
      ∀ k, (ofBytes ((RawMask.mk [0x202#64] 10).packLeBytesInto [0xff, 0xff, 0xff])).testBit k =
        true ↔ ∃ id : UInt32, id.toNat = k ∧ (RawMask.mk [0x202#64] 10).test id = some true := by
  have hbuilt : (RawMask.mk [0x202#64] 10).Built :=
    .set 9 (.set 1 (.withLen 10) rfl) rfl
  exact ⟨by decide +kernel, (packed_exact hbuilt [0xff, 0xff, 0xff]).2.2.2.1⟩

/-! ## The host's session -/

namespace Session

theorem clipped_syntacticMask (s : Session) : s.syntacticMask.Clipped := by
  have hindep : (s.mask.copyFrom (s.grammar.cached s.pda.state).2.indep).Clipped := by
    rw [CompiledGrammar.cached_snd, BitMask.copyFrom_eq (by rw [len_build, s.mask_len]), PureCard.build,
      foldl_buildToken_indep]
    exact (BitMask.clipped_withLen _).foldl_set _ _
  have hprobed : ∀ deferred, (probeDeferred s.pda s.grammar.vocab deferred
      (s.mask.copyFrom (s.grammar.cached s.pda.state).2.indep)).Clipped := fun deferred =>
    hindep.foldl_set (fun id => s.pda.admits (s.grammar.vocab.bytesOrEmpty id)) deferred
  unfold syntacticMask
  dsimp only
  split
  · split
    · exact (hprobed _).set _
    · exact hindep.set _
  · split
    · exact (hprobed _).clear _
    · exact hindep.clear _

theorem clipped_apply {o : Overlay} (h : o.mask.Clipped) (n : Narrowed) :
    (o.apply n).mask.Clipped := by
  unfold Overlay.apply
  split
  · exact h.intersect _
  · exact h

/-- The mask of a session has no padding bits, whatever its buffers held. -/
theorem clipped_allowedMask (s : Session) : s.allowedMask.mask.Clipped := by
  show s.refill.mask.Clipped
  unfold refill
  dsimp only
  split
  · unfold overlay
    dsimp only
    split
    · exact clipped_apply (clipped_apply s.clipped_syntacticMask _) _
    · exact clipped_apply s.clipped_syntacticMask _
  · exact s.clipped_syntacticMask

end Session

/-- `ffi.rs` `Session`: a session and the byte buffer it packs into. -/
structure HostSession where
  session : Session
  mask : Bytes
  vocabLen : Nat

namespace HostSession

def new (grammar : CompiledGrammar) (schema : Option Schema) : HostSession where
  session := .build grammar schema
  mask := []
  vocabLen := grammar.vocab.eosBit

/-- Refill the buffer; the bytes returned are a copy of it. -/
def allowedMask (h : HostSession) : HostSession × Bytes :=
  let session := h.session.allowedMask
  let buf := session.mask.raw.packLeBytesInto h.mask
  ({ h with session := session, mask := buf }, buf)

/-- A call, with the bytes that a mask call returns. -/
def call (h : HostSession) : Session.Call → HostSession × Option Bytes
  | .mask => (h.allowedMask.1, some h.allowedMask.2)
  | c => ({ h with session := (h.session.call c).1 }, none)

def runCalls (h : HostSession) (calls : List Session.Call) : HostSession :=
  calls.foldl (fun h c => (h.call c).1) h

theorem session_runCalls (h : HostSession) (calls : List Session.Call) :
    (h.runCalls calls).session = (h.session.runCalls calls).1 := by
  induction calls generalizing h with
  | nil => rfl
  | cons c calls ih =>
    have hcall : (h.call c).1.session = (h.session.call c).1 := by cases c <;> rfl
    have hstep : h.runCalls (c :: calls) = (h.call c).1.runCalls calls := rfl
    rw [hstep, ih, hcall]
    rfl

theorem vocabLen_runCalls (h : HostSession) (calls : List Session.Call) :
    (h.runCalls calls).vocabLen = h.vocabLen := by
  induction calls generalizing h with
  | nil => rfl
  | cons c calls ih =>
    have hcall : (h.call c).1.vocabLen = h.vocabLen := by cases c <;> rfl
    exact (ih _).trans hcall

/-- **The host recovers the allowed set.** After any calls, the bytes it
is given span the vocabulary and the EOS bit: a bit below `vocabLen` is
set for the tokens the session admits there, the bit at `vocabLen` when
the query is complete, and no other. -/
theorem recovers (grammar : CompiledGrammar) (schema : Schema) (calls : List Session.Call) :
    ((new grammar (some schema)).runCalls calls).allowedMask.2.length =
      (((new grammar (some schema)).runCalls calls).vocabLen + 1 + 7) / 8 ∧
    ∀ k, bitAt ((new grammar (some schema)).runCalls calls).allowedMask.2 k = true ↔
      (k < ((new grammar (some schema)).runCalls calls).vocabLen ∧
        ((Session.build grammar (some schema)).runCalls calls).1.pda.admits
          (grammar.vocab.bytesOrEmpty k) = true ∧
        ((Session.build grammar (some schema)).runCalls calls).1.legal
          (grammar.vocab.bytesOrEmpty k) = true) ∨
      (k = ((new grammar (some schema)).runCalls calls).vocabLen ∧
        ((Session.build grammar (some schema)).runCalls calls).1.isComplete = true) := by
  have hvocab : ((Session.build grammar (some schema)).runCalls calls).1.grammar.vocab =
      grammar.vocab := Session.vocab_runCalls _ calls
  have hmemo := Session.memoValid_runCalls grammar schema calls
  have hsession : ((new grammar (some schema)).runCalls calls).session =
      ((Session.build grammar (some schema)).runCalls calls).1 := session_runCalls _ calls
  have hlen : ((new grammar (some schema)).runCalls calls).vocabLen = grammar.vocab.eosBit :=
    vocabLen_runCalls _ calls
  unfold allowedMask
  rw [hsession, hlen]
  generalize ((Session.build grammar (some schema)).runCalls calls).1 = s at *
  constructor
  · dsimp only
    rw [BitMask.length_packed, s.allowedMask.mask_len]
    show (s.allowedMask.grammar.vocab.eosBit + 1 + 7) / 8 = _
    rw [show s.allowedMask.grammar.vocab = s.grammar.vocab from CompiledGrammar.vocab_cached ..,
      hvocab]
  · intro k
    dsimp only
    rw [s.clipped_allowedMask.bitAt_packed, ← hvocab]
    exact Session.allows_iff hmemo k

end HostSession

end PureCard
