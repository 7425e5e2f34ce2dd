/-
PureCard.Session — the decode session (`src/session.rs`, `src/error.rs`).

A session holds the grammar it masks against, the automaton, the byte
offset, the two mask buffers, the optional schema, the scope tracker and
the memo of schema masks. Both buffers have the grammar's mask length for
the whole life of a session, so that is a field of each.

The grammar is shared: other sessions over it may fill its cache between
two calls. `sharedFill` is that step.
-/
import PureCard.Schema.Narrow

namespace PureCard

/-- Why a decode step was refused. -/
inductive DecodeError where
  | deadState (offset : Nat) (byte : UInt8) (dead : DeadState)
  | unexpectedEos
  | inadmissibleToken (id : Nat)
  | unknownToken (id : Nat)
  deriving DecidableEq, Repr

structure Session where
  pda : Pda
  offset : Nat
  grammar : CompiledGrammar
  mask : BitMask
  narrowBuf : BitMask
  schema : Option Schema
  tracker : ScopeTracker
  narrowCache : NarrowCache
  mask_len : mask.len = grammar.vocab.maskLen
  narrowBuf_len : narrowBuf.len = grammar.vocab.maskLen

namespace Session

/-- `DecoderSession::build`: a fresh session; `new` is `schema = none` and
`with_schema` is `schema = some _`. -/
def build (grammar : CompiledGrammar) (schema : Option Schema) : Session where
  pda := .new
  offset := 0
  grammar := grammar
  mask := .withLen grammar.vocab.maskLen
  narrowBuf := .withLen grammar.vocab.maskLen
  schema := schema
  tracker := .new
  narrowCache := .new
  mask_len := rfl
  narrowBuf_len := rfl

def isComplete (s : Session) : Bool := s.pda.isAccepting

/-- The first visit of `state` by another session over the same grammar. -/
def sharedFill (s : Session) (state : State) : Session :=
  { s with grammar := s.grammar.fill state }

/-! ## The allowed mask -/

/-- The re-probe loop over the deferred tokens. -/
def probeDeferred (pda : Pda) (vocab : Vocab) (deferred : List Nat) (mask : BitMask) : BitMask :=
  deferred.foldl (fun m id => if pda.admits (vocab.bytesOrEmpty id) then m.set id else m) mask

@[simp] theorem len_probeDeferred (pda : Pda) (vocab : Vocab) (deferred : List Nat)
    (mask : BitMask) : (probeDeferred pda vocab deferred mask).len = mask.len :=
  BitMask.len_foldl_set (fun id => pda.admits (vocab.bytesOrEmpty id)) deferred mask

/-- The syntactic half of `allowed_mask`: the cached survivors, the
re-probed deferred tokens and the EOS bit. Over an empty stack every
deferred token is dead and the re-probe is skipped. -/
def syntacticMask (s : Session) : BitMask :=
  let cached := (s.grammar.cached s.pda.state).2
  let mask := s.mask.copyFrom cached.indep
  let mask := if s.pda.stackTop.isSome then
      probeDeferred s.pda s.grammar.vocab cached.deferred mask
    else mask
  if s.pda.isAccepting then mask.set s.grammar.eosBit else mask.clear s.grammar.eosBit

@[simp] theorem len_syntacticMask (s : Session) :
    s.syntacticMask.len = s.grammar.vocab.maskLen := by
  unfold syntacticMask
  rw [apply_ite BitMask.len]
  simp only [BitMask.len_set, BitMask.len_clear, ite_self]
  rw [apply_ite BitMask.len, len_probeDeferred, ite_self, BitMask.len_copyFrom, s.mask_len]

/-- The buffers of the schema half: the mask, the narrowing buffer and the
memo, as they are threaded through the two passes. -/
structure Overlay where
  mask : BitMask
  narrowBuf : BitMask
  cache : NarrowCache

/-- Intersect the mask with the buffer if a constraint applied. -/
def Overlay.apply (o : Overlay) (n : Narrowed) : Overlay :=
  ⟨if n.applied then o.mask.intersect n.dst else o.mask, n.dst, n.cache⟩

/-- The schema half of `allowed_mask`: the narrow at the position, then the
narrow of the fused navigation dot. -/
def overlay (s : Session) (schema : Schema) (o : Overlay) : Overlay :=
  let o := o.apply (narrowInto o.narrowBuf o.cache schema (s.tracker.position s.pda.state)
    s.tracker.narrowPrefix s.tracker.emittedColumns s.grammar.vocab)
  match s.tracker.fusedNavPosition schema with
  | some fused =>
    o.apply (narrowFusedInto o.narrowBuf o.cache schema fused s.tracker.emittedColumns
      s.grammar.vocab)
  | none => o

/-- The buffers `allowed_mask` ends with. -/
def refill (s : Session) : Overlay :=
  let o : Overlay := ⟨s.syntacticMask, s.narrowBuf, s.narrowCache⟩
  match s.schema with
  | some schema => s.overlay schema o
  | none => o

@[simp] theorem Overlay.len_apply (o : Overlay) (n : Narrowed) :
    (o.apply n).mask.len = o.mask.len := by
  unfold Overlay.apply
  split <;> simp

theorem len_overlay (s : Session) (schema : Schema) (o : Overlay) :
    (s.overlay schema o).mask.len = o.mask.len ∧
      (s.overlay schema o).narrowBuf.len = o.narrowBuf.len := by
  unfold overlay
  split
  · simp only [Overlay.len_apply, true_and]
    simp only [Overlay.apply, len_narrowFusedInto, len_narrowInto]
  · simp only [Overlay.len_apply, true_and]
    simp only [Overlay.apply, len_narrowInto]

theorem len_refill (s : Session) :
    s.refill.mask.len = s.grammar.vocab.maskLen ∧
      s.refill.narrowBuf.len = s.grammar.vocab.maskLen := by
  unfold refill
  split
  · have h := s.len_overlay ‹_› ⟨s.syntacticMask, s.narrowBuf, s.narrowCache⟩
    exact ⟨h.1.trans s.len_syntacticMask, h.2.trans s.narrowBuf_len⟩
  · exact ⟨s.len_syntacticMask, s.narrowBuf_len⟩

/-- Refill the mask for the current position; the result is the `mask`
field. -/
def allowedMask (s : Session) : Session where
  pda := s.pda
  offset := s.offset
  grammar := (s.grammar.cached s.pda.state).1
  mask := s.refill.mask
  narrowBuf := s.refill.narrowBuf
  schema := s.schema
  tracker := s.tracker
  narrowCache := s.refill.cache
  mask_len := by rw [CompiledGrammar.vocab_cached, s.len_refill.1]
  narrowBuf_len := by rw [CompiledGrammar.vocab_cached, s.len_refill.2]

/-- The bit of `id` in the mask handed to the host. -/
def allows (s : Session) (id : Nat) : Bool := s.allowedMask.mask.test id

/-! ## Committing -/

/-- Commit the bytes of an admissible token: the tracker sees the token
from the automaton before it. -/
def commit (s : Session) (bytes : Bytes) (pda : Pda) : Session :=
  { s with
    pda := pda
    offset := s.offset + bytes.length
    tracker := match s.schema with
      | some schema => s.tracker.observe bytes s.pda schema
      | none => s.tracker }

/-- Advance by one whole token, or refuse it. -/
def acceptToken (s : Session) (id : Nat) : Except DecodeError Session :=
  if id = s.grammar.eosBit then
    if s.pda.isAccepting then .ok s else .error .unexpectedEos
  else
    match s.grammar.vocab.bytes id with
    | none => .error (.unknownToken id)
    | some bytes =>
      match s.pda.advanceAll bytes with
      | .ok pda => .ok (s.commit bytes pda)
      | .error _ => .error (.inadmissibleToken id)

/-- `ByteRecognizer::accept_byte`. -/
def acceptByte (s : Session) (byte : UInt8) : Except DecodeError Session :=
  match s.pda.advance byte with
  | .ok pda => .ok { s with pda := pda, offset := s.offset + 1 }
  | .error dead => .error (.deadState s.offset byte dead)

/-- Return to a fresh stream. The buffers and the grammar's cache stay. -/
def reset (s : Session) : Session :=
  { s with pda := .new, offset := 0, tracker := .new, narrowCache := .new }

end Session

end PureCard
